import Mathlib
import EffectScript.Proofs.Declarations
import EffectScript.Proofs.Facing

/-!
# State assignments

A state assignment is

    keyword [[index]] ['name' | name] (= value ; | { data })

Its readers share one cursor, and whether an optional part is there is decided by the next visible
token.

Main statements: `readState_assignment`, and `readState_misreads` about the two forms that are read
as something else: data without a name, whose brace is taken for the name, and a value in
parentheses right behind the keyword, which together with braces further on is taken for a function.
-/

namespace EffectScript

/-! ## 1. Decimal literals -/

namespace Numeral

theorem toNat_ofChar {c : Char} (h : c.isDigit = true) :
    (Bytes.ofChar c).toNat = c.toNat ∧ 48 ≤ c.toNat ∧ c.toNat ≤ 57 := by
  have hbounds : 48 ≤ c.toNat ∧ c.toNat ≤ 57 := by
    simp only [Char.isDigit, Bool.and_eq_true, decide_eq_true_eq] at h
    exact h
  refine ⟨?_, hbounds⟩
  show c.toNat % 256 = c.toNat
  omega

theorem digit?_ofChar {c : Char} (h : c.isDigit = true) :
    digit? (Bytes.ofChar c) = some (c.toNat - 48) ∧ c.toNat - 48 < 10 ∧
      Bytes.ofChar c ≠ separator := by
  obtain ⟨hnat, hlower, hupper⟩ := toNat_ofChar h
  have hdigit : (0x30 ≤ Bytes.ofChar c && Bytes.ofChar c ≤ 0x39) = true := by
    rw [Bool.and_eq_true, decide_eq_true_iff, decide_eq_true_iff, UInt8.le_iff_toNat_le,
      UInt8.le_iff_toNat_le, hnat]
    exact ⟨hlower, hupper⟩
  refine ⟨?_, by omega, ?_⟩
  · rw [digit?, if_pos hdigit, hnat]
  · intro hseparator
    rw [hseparator] at hnat
    exact absurd hnat (by show 95 ≠ c.toNat; omega)

theorem digitsValue?_ofChars {cs : List Char} (h : ∀ c ∈ cs, c.isDigit = true) (value : Nat) :
    digitsValue? 10 value (cs.map Bytes.ofChar) = some (Nat.ofDigitChars 10 cs value) := by
  induction cs generalizing value with
  | nil => rfl
  | cons c cs ih =>
    obtain ⟨hc, hcs⟩ := List.forall_mem_cons.mp h
    obtain ⟨hdigit, hlt, hseparator⟩ := digit?_ofChar hc
    rw [List.map_cons, digitsValue?, if_neg hseparator, hdigit]
    dsimp only
    rw [if_pos hlt, ih hcs, Nat.ofDigitChars_cons, Nat.mul_comm]
    rfl

theorem wellSeparated_ofChars {cs : List Char} (h : ∀ c ∈ cs, c.isDigit = true) :
    wellSeparated true (cs.map Bytes.ofChar) = true := by
  induction cs with
  | nil => rfl
  | cons c cs ih =>
    obtain ⟨hc, hcs⟩ := List.forall_mem_cons.mp h
    rw [List.map_cons, wellSeparated, if_neg (digit?_ofChar hc).2.2]
    exact ih hcs

/-- The decimal digits of a number other than zero do not start with zero. -/
theorem exists_toDigits {n : Nat} (hn : 0 < n) :
    ∃ c cs, Nat.toDigits 10 n = c :: cs ∧ c ≠ '0' := by
  induction n using Nat.base_induction 10 (by decide) with
  | single m hm =>
    refine ⟨m.digitChar, [], Nat.toDigits_of_lt_base hm, ?_⟩
    interval_cases m <;> decide
  | digit m k hk hm ih =>
    obtain ⟨c, cs, heq, hc⟩ := ih hm
    exact ⟨c, cs ++ Nat.toDigits 10 k,
      by rw [← Nat.toDigits_append_toDigits (by decide) hm hk, heq]; rfl, hc⟩

theorem isDigit_of_mem {n : Nat} {c : Char} (h : c ∈ Nat.toDigits 10 n) : c.isDigit = true :=
  Nat.isDigit_of_mem_toDigits (by decide) (by decide) h

theorem unsigned?_decimal (n : Nat) :
    unsigned? (Bytes.decimal n) = if n < UInt64.size then some (UInt64.ofNat n) else none := by
  rcases Nat.eq_zero_or_pos n with rfl | hn
  · rfl
  · obtain ⟨c, cs, hdigits, hc⟩ := exists_toDigits hn
    have hall : ∀ c ∈ Nat.toDigits 10 n, c.isDigit = true := fun _ => isDigit_of_mem
    have hvalue : digitsValue? 10 0 (Bytes.decimal n) = some n := by
      rw [Bytes.decimal, digitsValue?_ofChars hall, Nat.ofDigitChars_ten_toDigits]
    have htext : Bytes.decimal n = Bytes.ofChar c :: cs.map Bytes.ofChar := by
      rw [Bytes.decimal, hdigits, List.map_cons]
    rw [hdigits, List.forall_mem_cons] at hall
    have hzero : Bytes.ofChar c ≠ 0x30 := by
      intro heq
      have hnat := (toNat_ofChar hall.1).1
      rw [heq] at hnat
      exact hc (Char.toNat_inj.mp hnat.symm)
    have hsplit : split (Bytes.decimal n) = (10, Bytes.decimal n, false) := by
      rw [htext]
      unfold split
      split
      · rename_i heq
        exact absurd (List.cons.inj heq).1 hzero
      · rename_i heq
        exact absurd (List.cons.inj heq).1 hzero
      · rfl
    have hseparated : wellSeparated false (Bytes.decimal n) = true := by
      rw [htext, wellSeparated, if_neg (digit?_ofChar hall.1).2.2, wellSeparated_ofChars hall.2]
    unfold unsigned?
    rw [hsplit]
    dsimp only
    rw [if_pos hseparated, hvalue]

/-- A decimal literal starts with a digit. -/
theorem exists_decimal (n : Nat) :
    ∃ c rest, Bytes.decimal n = c :: rest ∧ 48 ≤ c.toNat ∧ c.toNat ≤ 57 := by
  have hne : Nat.toDigits 10 n ≠ [] := Nat.toDigits_ne_nil
  obtain ⟨c, cs, hdigits⟩ := List.exists_cons_of_ne_nil hne
  have hc : c ∈ Nat.toDigits 10 n := hdigits ▸ List.mem_cons_self
  obtain ⟨hnat, hbounds⟩ := toNat_ofChar (isDigit_of_mem hc)
  exact ⟨Bytes.ofChar c, cs.map Bytes.ofChar, by rw [Bytes.decimal, hdigits, List.map_cons],
    hnat ▸ hbounds⟩

/-- **A decimal literal is read as its number**, unless this is beyond the signed words. -/
theorem signed?_decimal (n : Nat) :
    signed? (Bytes.decimal n) = if n < 0x8000000000000000 then some (n : Int) else none := by
  have hsigns : signed? (Bytes.decimal n) = signed?.nonNegative? (Bytes.decimal n) := by
    obtain ⟨c, rest, htext, hlower, -⟩ := exists_decimal n
    rw [htext]
    unfold signed?
    split
    · rename_i heq
      rw [(List.cons.inj heq).1] at hlower
      exact absurd hlower (by decide)
    · rename_i heq
      rw [(List.cons.inj heq).1] at hlower
      exact absurd hlower (by decide)
    · rfl
  rw [hsigns, signed?.nonNegative?, unsigned?_decimal]
  by_cases hword : n < UInt64.size
  · rw [if_pos hword]
    dsimp only
    rw [UInt64.toNat_ofNat_of_lt' hword]
  · have hlarge : ¬ n < 0x8000000000000000 := by
      unfold UInt64.size at hword
      omega
    rw [if_neg hword, if_neg hlarge]

end Numeral

/-! ## 2. State assignments -/

/-- A run of tokens without a semicolon, but for what stands between quotes. -/
inductive Unended : List TokenId → Prop
  | nil : Unended []
  | other {id : TokenId} {rest : List TokenId} (hsemicolon : id ≠ TokenId.semicolon)
      (hquote : id ≠ TokenId.quote) : Unended rest → Unended (id :: rest)
  | quoted {inner rest : List TokenId} (hinner : TokenId.quote ∉ inner) :
      Unended rest → Unended (TokenId.quote :: (inner ++ TokenId.quote :: rest))

/-- A token that is spelled as the decimal literal of a number. -/
structure IndexText where
  id : TokenId
  number : Nat

def IndexText.Spelled (n : IndexText) (table : SpellingTable) : Prop :=
  table.spelling? n.id = some (Bytes.decimal n.number)

/-- The number as an index; a literal beyond the signed words counts as zero. -/
def IndexText.value (n : IndexText) : Int := if n.number < 0x8000000000000000 then n.number else 0

/-- A word, by itself or in single quotes. -/
structure StateName where
  word : TokenId
  isWord : word.isSign = false
  quoted : Bool

def StateName.render (n : StateName) : List TokenId :=
  if n.quoted then [TokenId.singleQuote, n.word, TokenId.singleQuote] else [n.word]

/-- What is assigned: a value up to its semicolon, or data in braces. -/
inductive StateBody where
  | value (ids : List TokenId) (nonempty : ids ≠ []) (unended : Unended ids)
  | data (g : GroupText TokenId.leftBrace TokenId.rightBrace)

namespace StateBody

def isValue : StateBody → Bool
  | value _ _ _ => true
  | data _ => false

def render : StateBody → List TokenId
  | value ids _ _ => TokenId.equals :: (ids ++ [TokenId.semicolon])
  | data g => g.render

/-- The tokens that are assigned. -/
def ids : StateBody → List TokenId
  | value ids _ _ => ids
  | data g => g.inside

theorem three_le_length (b : StateBody) : 3 ≤ b.render.length := by
  cases b with
  | value ids hne _ =>
    have hpos := List.length_pos_iff.mpr hne
    simp only [render, List.length_cons, List.length_append, List.length_nil]
    omega
  | data g =>
    have hpos := List.length_pos_iff.mpr g.nonempty
    simp only [render, GroupText.render, List.length_cons, List.length_append, List.length_nil]
    omega

theorem exists_render (b : StateBody) :
    ∃ y ys, b.render = y :: ys ∧ y ∈ [TokenId.equals, TokenId.leftBrace] ∧
      (b.isValue = true → y = TokenId.equals) := by
  cases b with
  | value ids _ _ => exact ⟨TokenId.equals, _, rfl, by decide, fun _ => rfl⟩
  | data g => exact ⟨TokenId.leftBrace, _, rfl, by decide, fun h => Bool.noConfusion h⟩

end StateBody

/-- A state assignment.  Its keyword is a word that leads no fragment. -/
structure StateText where
  keyword : TokenId
  isWord : keyword.isSign = false
  unqualified : StorageClass.ofToken (.lit keyword) = .default
  undirected : keyword.isDirective = false
  index : Option IndexText
  name : Option StateName
  body : StateBody

namespace StateText

variable (st : StateText)

def indexIds : List TokenId :=
  st.index.elim [] fun n => [TokenId.leftBracket, n.id, TokenId.rightBracket]

def nameIds : List TokenId := st.name.elim [] StateName.render

def render : List TokenId := st.keyword :: (st.indexIds ++ (st.nameIds ++ st.body.render))

/-- The index, minus one when there is none. -/
def indexValue : Int := st.index.elim (-1) IndexText.value

/-- The word of the name. -/
def nameWords : List TokenId := st.name.elim [] fun n => [n.word]

theorem four_le_length : 4 ≤ st.render.length := by
  have hbody := st.body.three_le_length
  rw [render, List.length_cons, List.length_append, List.length_append]
  omega

/-- Behind the index comes no bracket. -/
theorem exists_tail : ∃ x xs, st.nameIds ++ st.body.render = x :: xs ∧ x ≠ TokenId.leftBracket := by
  unfold nameIds
  cases st.name with
  | none =>
    obtain ⟨y, ys, hbody, hy, -⟩ := st.body.exists_render
    exact ⟨y, ys, hbody, fun heq => absurd (heq ▸ hy) (by decide)⟩
  | some n =>
    obtain ⟨word, hword, _ | _⟩ := n
    · refine ⟨word, _, rfl, ?_⟩
      rintro rfl
      cases hword
    · exact ⟨TokenId.singleQuote, _, rfl, by decide⟩

end StateText

/-! ## 3. The readers -/

/-- A literal is no parenthesis. -/
theorem IndexText.Spelled.ne_leftParen {table : SpellingTable} {n : IndexText}
    (h : n.Spelled table) : n.id ≠ TokenId.leftParen := by
  intro heq
  have hparen : table.spelling? TokenId.leftParen = some [0x28] := rfl
  obtain ⟨c, rest, htext, hlower, -⟩ := Numeral.exists_decimal n.number
  rw [IndexText.Spelled, heq, hparen, Option.some.injEq, htext, List.cons.injEq] at h
  rw [← h.1] at hlower
  exact absurd hlower (by decide)

/-- What the scan for the end of a value does at a token. -/
def valueLook (tokens : List Token) (last : Int) (_ : Unit) (i : Int) (t : Token) : Move Unit :=
  if t = .lit TokenId.quote then .jump () (closingQuote tokens last i)
  else if t = .lit TokenId.semicolon then .stop ()
  else .next ()

/-- The scan for the end of a value goes over the value. -/
theorem Unended.traverses {tokens text : List Token} {last : Int} {ids : List TokenId}
    (h : Unended ids) (hmarked : WellMarked text) (hvisible : visible text = ids) :
    Traverses tokens last (valueLook tokens last) () text () := by
  have hgap : ∀ {gap : List Token}, Showing (fun _ => False) gap →
      Traverses tokens last (valueLook tokens last) () gap () :=
    fun hgap => hgap.traverses fun _ hid => hid.elim
  induction h generalizing text with
  | nil => exact hgap (hmarked.showing_false hvisible)
  | other hsemicolon hquote _ ih =>
    obtain ⟨gap, after, rfl, hnone, hafter, hshown⟩ := hmarked.split_cons hvisible
    exact (hgap hnone).append
      (.cons (fun i => by simp [valueLook, hsemicolon, hquote]) (ih hafter hshown))
  | quoted hinner _ ih =>
    obtain ⟨gap, quoted, after, rfl, hnone, hquoted, hafter, hshown⟩ :=
      hmarked.split_quoted hinner hvisible
    exact (hgap hnone).append (.quoted (fun _ => if_pos rfl) hquoted (ih hafter hshown))

namespace Slicer

variable {s : Slicer} {stop : Int} {ids : List TokenId}

@[simp] theorem moveTo_tokens (s : Slicer) (i : Int) : (s.moveTo i).tokens = s.tokens := rfl

@[simp] theorem moveTo_cursor (s : Slicer) (i : Int) : (s.moveTo i).frame.cursor = i := rfl

@[simp] theorem moveTo_moveTo (s : Slicer) (i j : Int) : (s.moveTo i).moveTo j = s.moveTo j := rfl

@[simp] theorem here_moveTo (s : Slicer) (i : Int) : (s.moveTo i).here = tokenAt s.tokens i := rfl

@[simp] theorem skipHidden_moveTo (s : Slicer) (i : Int) :
    (s.moveTo i).skipHidden = s.moveTo (visibleFrom s.tokens i) := rfl

theorem inBounds_iff :
    s.inBounds = true ↔ 0 ≤ s.frame.cursor ∧ s.frame.cursor < s.tokens.length := by
  simp [inBounds]

theorem integer_literal {i : Int} {n : IndexText} (hspelled : n.Spelled s.table)
    (htoken : tokenAt s.tokens i = .lit n.id) : s.integer (Frame.ofBounds i i) = n.value := by
  have hnonempty : (Frame.ofBounds i i).isEmpty = false := decide_eq_false (Int.lt_irrefl i)
  have hfirst : tokenAt s.tokens (Frame.ofBounds i i).first = .lit n.id := htoken
  unfold integer
  rw [hnonempty, if_neg Bool.false_ne_true, hfirst, Token.id,
    SpellingTable.spellingOrName, hspelled,
    Option.getD_some, Numeral.signed?_decimal, IndexText.value]
  split <;> rfl

/-- The index in brackets, if there is one.  The cursor is then at the next visible token. -/
theorem reads_index {x : TokenId} {index : Option IndexText}
    (hspelled : ∀ n ∈ index, n.Spelled s.table) (hx : index = none → x ≠ TokenId.leftBracket)
    (h : Faces s.tokens s.frame.cursor
      (index.elim [] (fun n => [TokenId.leftBracket, n.id, TokenId.rightBracket]) ++ x :: ids)
      stop) :
    ∃ i, s.indexPiece = (index.elim (-1) IndexText.value, s.moveTo i) ∧ hiddenAt s.tokens i = 0 ∧
      Faces s.tokens i (x :: ids) stop := by
  unfold indexPiece
  cases index with
  | none =>
    obtain ⟨-, hzero, htoken, hfaces, -⟩ := Faces.to_visible h
    have hother : s.skipHidden.here ≠ .lit TokenId.leftBracket := by
      show tokenAt s.tokens (visibleFrom s.tokens s.frame.cursor) ≠ _
      rw [htoken, ne_eq, Token.lit.injEq]
      exact hx rfl
    exact ⟨_, if_neg hother, hzero, hfaces⟩
  | some n =>
    -- The bracket, the literal, the other bracket, and the token behind it.
    obtain ⟨-, -, hopening, -, hliteral⟩ := Faces.to_visible h
    obtain ⟨-, -, htoken, -, hclosing⟩ := Faces.to_visible hliteral
    obtain ⟨-, -, hcloser, -, hbehind⟩ := Faces.to_visible hclosing
    obtain ⟨-, hzero, -, hfaces, -⟩ := Faces.to_visible hbehind
    refine ⟨_, ?_, hzero, hfaces⟩
    have hopen : s.skipHidden.here = .lit TokenId.leftBracket := hopening
    simp only [if_pos hopen, skipHidden_tokens, skipHidden_cursor, moveTo_tokens, moveTo_cursor,
      here_moveTo, hcloser, if_true, moveTo_moveTo]
    exact congrArg₂ Prod.mk (integer_literal (hspelled n rfl) htoken) rfl

theorem passSemicolon_of_ne {i : Int}
    (h : tokenAt s.tokens (visibleFrom s.tokens i) ≠ .lit TokenId.semicolon) :
    s.passSemicolon i = s.moveTo (visibleFrom s.tokens i) :=
  if_neg fun hsemicolon => h hsemicolon.2

/-- The inside of a group that the scan goes over.  What is still to be passed is a semicolon behind
it. -/
theorem reads_group {opener closer : TokenId} {xs : List TokenId} (hxs : xs ≠ [])
    (hclose : ∀ i, groupLook s.tokens s.frame.last opener closer 1 i (.lit closer) = .stop 0)
    (htraverses : ∀ w, WellMarked w → visible w = xs →
      Traverses s.tokens s.frame.last (groupLook s.tokens s.frame.last opener closer) 1 w 1)
    (hzero : hiddenAt s.tokens s.frame.cursor = 0) (hstop : stop ≤ s.frame.last + 1)
    (h : Faces s.tokens s.frame.cursor (opener :: (xs ++ closer :: ids)) stop) :
    ∃ f i, s.groupPiece opener closer = (f, s.passSemicolon i) ∧ f.Shows s.tokens xs ∧
      Faces s.tokens i ids stop := by
  obtain ⟨htoken, hinside⟩ := h.at_visible hzero
  obtain ⟨w, rest, hrest, hw, hvisible, hbehind⟩ := hinside.cut
  have hle := hbehind.add_length_le
  have hlength := h.stop_le_length
  have hlt : s.frame.cursor < s.tokens.length := by omega
  obtain ⟨t, rest', hcursor⟩ := Rest.exists_cons h.nonneg hlt
  obtain rfl : t = .lit opener := hcursor.tokenAt_eq.symm.trans htoken
  obtain rfl : rest' = w ++ .lit closer :: rest := hcursor.tail.2.symm.trans hrest.2
  have hnil : w ≠ [] := by
    rintro rfl
    exact hxs (hvisible.symm.trans visible_nil)
  have hread := groupPiece_of_traverses hcursor (by omega) hclose (htraverses w hw hvisible)
  rw [if_neg hnil] at hread
  refine ⟨_, _, hread, ?_, ?_⟩
  · rw [← hvisible]
    exact shows_text hrest hw (hvisible ▸ hxs) (by omega)
  · rwa [show s.frame.cursor + (w.length : Int) + 2 = s.frame.cursor + 1 + w.length + 1 by omega]

/-- The name, if there is one. -/
theorem reads_name {x : TokenId} {name : Option StateName} (hx : x ≠ TokenId.semicolon)
    (hnone : name = none → x = TokenId.equals) (hzero : hiddenAt s.tokens s.frame.cursor = 0)
    (hstop : stop ≤ s.frame.last + 1)
    (h : Faces s.tokens s.frame.cursor (name.elim [] StateName.render ++ x :: ids) stop) :
    ∃ f i, s.stateName = (f, s.moveTo i) ∧ f.Shows s.tokens (name.elim [] fun n => [n.word]) ∧
      Faces s.tokens i (x :: ids) stop := by
  unfold stateName
  cases name with
  | none =>
    have hequals : s.here = .lit TokenId.equals := by
      rw [← hnone rfl]
      exact (Faces.at_visible h hzero).1
    rw [if_neg (by rw [hequals]; decide), if_pos hequals]
    exact ⟨_, _, rfl, Frame.empty_shows _, h⟩
  | some n =>
    obtain ⟨word, hword, _ | _⟩ := n
    · obtain ⟨htoken, hbehind⟩ := Faces.at_visible h hzero
      have hne : ∀ x : TokenId, x.isSign = true → s.here ≠ .lit x := by
        intro x hx heq
        obtain rfl : word = x := Token.lit.inj (htoken.symm.trans heq)
        exact Bool.false_ne_true (hword.symm.trans hx)
      rw [if_neg (hne _ rfl), if_neg (hne _ rfl)]
      exact ⟨_, _, rfl, Faces.shows_one h hzero, hbehind⟩
    · have hquote : s.here = .lit TokenId.singleQuote := (Faces.at_visible h hzero).1
      have hne : ∀ x : TokenId, x.isSign = true → word ≠ x := by
        rintro x hx rfl
        exact Bool.false_ne_true (hword.symm.trans hx)
      -- Opener and closer are the same, so that the inside is just what has neither them nor
      -- quotes.
      have htraverses : ∀ w, WellMarked w → visible w = [word] →
          Traverses s.tokens s.frame.last
            (groupLook s.tokens s.frame.last TokenId.singleQuote TokenId.singleQuote) 1 w 1 := by
        intro w hw hvisible
        refine (hw.showing (p := (· = word)) (by simp [hvisible])).traverses fun id hid i => ?_
        subst hid
        exact groupLook_other (hne _ rfl) (hne _ rfl) (hne _ rfl) 1 i
      obtain ⟨f, i, hread, hshows, hfaces⟩ := reads_group (List.cons_ne_nil word [])
        (fun i => groupLook_closer (by decide) 1 i) htraverses hzero hstop h
      obtain ⟨-, -, hbehind, hvisible, -⟩ := hfaces.to_visible
      have hother : tokenAt s.tokens (visibleFrom s.tokens i) ≠ .lit TokenId.semicolon := by
        rwa [hbehind, ne_eq, Token.lit.injEq]
      rw [if_pos hquote, hread, passSemicolon_of_ne hother]
      exact ⟨f, _, rfl, hshows, hvisible⟩

/-- The value up to its semicolon. -/
theorem reads_value {xs : List TokenId} (hxs : xs ≠ []) (hunended : Unended xs)
    (hstop : stop ≤ s.frame.last + 1)
    (h : Faces s.tokens s.frame.cursor (xs ++ TokenId.semicolon :: ids) stop) :
    ∃ f i, s.statePiece = (f, s.moveTo i) ∧ f.Shows s.tokens xs ∧ Faces s.tokens i ids stop := by
  obtain ⟨x, xs', rfl⟩ := List.exists_cons_of_ne_nil hxs
  obtain ⟨-, -, -, hvisible, -⟩ := Faces.to_visible h
  have hlength := Faces.stop_le_length hvisible
  obtain ⟨w, rest, hrest, hw, hshown, hbehind⟩ :=
    (show Faces s.tokens _ ((x :: xs') ++ TokenId.semicolon :: ids) stop from hvisible).cut
  have hle := hbehind.add_length_le
  have hstart := hrest.1
  have hlt : visibleFrom s.tokens s.frame.cursor < s.tokens.length := by omega
  have hbounds : s.skipHidden.inBounds = true := inBounds_iff.mpr ⟨hstart, hlt⟩
  have hscan : scan s.tokens s.frame.last (valueLook s.tokens s.frame.last) ()
      (visibleFrom s.tokens s.frame.cursor)
      = ⟨(), visibleFrom s.tokens s.frame.cursor + w.length, true⟩ :=
    (hunended.traverses hw hshown).stop (fun _ => rfl) hrest (by omega)
  have hread : s.statePiece = (Frame.ofBounds (visibleFrom s.tokens s.frame.cursor)
      (visibleFrom s.tokens s.frame.cursor + w.length - 1),
        s.moveTo (visibleFrom s.tokens s.frame.cursor + w.length + 1)) :=
    (if_pos hbounds).trans (congrArg (fun found : Scanned Unit =>
      (Frame.ofBounds (visibleFrom s.tokens s.frame.cursor) (found.index - 1),
        s.moveTo (if found.stopped then found.index + 1 else found.index))) hscan)
  refine ⟨_, _, hread, ?_, hbehind⟩
  rw [← hshown]
  exact shows_text hrest hw (hshown ▸ hxs) rfl

/-- The value behind an equality sign at the cursor, or the data in braces. -/
def bodyPiece (s : Slicer) : Frame × Slicer :=
  if s.here = .lit TokenId.equals then (s.moveTo (s.frame.cursor + 1)).statePiece
  else s.groupPiece TokenId.leftBrace TokenId.rightBrace

/-- What is assigned, in front of anything that does not start with a semicolon. -/
theorem reads_body {b : StateBody} (hzero : hiddenAt s.tokens s.frame.cursor = 0)
    (hstop : stop ≤ s.frame.last + 1)
    (hbehind : tokenAt s.tokens (visibleFrom s.tokens stop) ≠ .lit TokenId.semicolon)
    (h : Faces s.tokens s.frame.cursor b.render stop) :
    ∃ f i, s.bodyPiece = (f, s.moveTo i) ∧ f.Shows s.tokens b.ids ∧
      visibleFrom s.tokens i = visibleFrom s.tokens stop := by
  unfold bodyPiece
  cases b with
  | value ids hne hunended =>
    obtain ⟨hequals, hvalue⟩ := Faces.at_visible h hzero
    obtain ⟨f, i, hread, hshows, hfaces⟩ :=
      reads_value (s := s.moveTo (s.frame.cursor + 1)) hne hunended hstop hvalue
    exact ⟨f, i, (if_pos hequals).trans hread, hshows, hfaces.visibleFrom_eq⟩
  | data g =>
    have hbrace : s.here = .lit TokenId.leftBrace := (Faces.at_visible h hzero).1
    obtain ⟨f, i, hread, hshows, hfaces⟩ := reads_group g.nonempty
      (fun i => groupLook_closer (by decide) 1 i)
      (fun w hw hvisible =>
        (g.grouped.inside hw hvisible).traverses (by decide) (by decide) (by decide) 1
        (Int.le_refl 1)) hzero hstop h
    rw [← hfaces.visibleFrom_eq] at hbehind ⊢
    rw [if_neg (by rw [hbrace]; decide), hread, passSemicolon_of_ne hbehind]
    exact ⟨f, _, rfl, hshows, visibleFrom_visibleFrom _ _⟩

/-- The slicer behind a semicolon or a quote, if it is at one. -/
def passSign (s : Slicer) : Slicer :=
  if s.here = .lit TokenId.semicolon ∨ s.here = .lit TokenId.quote then
    s.moveTo (s.frame.cursor + 1)
  else s

theorem passSign_of_ne (h : ∀ y ∈ [TokenId.semicolon, TokenId.quote], s.here ≠ .lit y) :
    s.passSign = s := by
  refine if_neg ?_
  rintro (hsemicolon | hquote)
  · exact h _ (by decide) hsemicolon
  · exact h _ (by decide) hquote

/-- Reading the pieces of a state assignment, reader by reader. -/
theorem statePieces_eq (s : Slicer) :
    s.statePieces = (s.indexPiece.1,
      s.indexPiece.2.stateName.2.skipHidden.bodyPiece.2.skipHidden.passSign.setPieces
        { Pieces.empty with
          name := s.indexPiece.2.stateName.1
          data := s.indexPiece.2.stateName.2.skipHidden.bodyPiece.1 }) :=
  rfl

/-- **The index and the pieces behind the keyword.** -/
theorem reads_state {st : StateText} (hspelled : ∀ n ∈ st.index, n.Spelled s.table)
    (hnamed : st.name = none → st.body.isValue = true) (hstop : stop ≤ s.frame.last + 1)
    (hbehind : ∀ y ∈ [TokenId.semicolon, TokenId.quote],
      tokenAt s.tokens (visibleFrom s.tokens stop) ≠ .lit y)
    (h : Faces s.tokens s.frame.cursor (st.indexIds ++ (st.nameIds ++ st.body.render)) stop) :
    ∃ name data, s.statePieces = (st.indexValue,
        (s.moveTo (visibleFrom s.tokens stop)).setPieces { Pieces.empty with name, data }) ∧
      name.Shows s.tokens st.nameWords ∧ data.Shows s.tokens st.body.ids := by
  obtain ⟨y, ys, hbody, hy, hvalue⟩ := st.body.exists_render
  obtain ⟨x, xs, htail, hx⟩ := st.exists_tail
  have hindexed : Faces s.tokens s.frame.cursor (st.indexIds ++ x :: xs) stop := htail ▸ h
  obtain ⟨i, hindex, hzero, hi⟩ := reads_index hspelled (fun _ => hx) hindexed
  have hfaces : Faces s.tokens i (st.nameIds ++ y :: ys) stop := by
    rwa [← hbody, htail]
  obtain ⟨name, j, hname, hshows, hj⟩ :=
    reads_name (s := s.moveTo i) (fun heq => absurd (heq ▸ hy) (by decide))
    (fun hnone => hvalue (hnamed hnone)) hzero hstop hfaces
  obtain ⟨-, hzero', -, hj', -⟩ := hj.to_visible
  have hrender : Faces s.tokens (visibleFrom s.tokens j) st.body.render stop := hbody ▸ hj'
  obtain ⟨data, k, hdata, hshows', hk⟩ :=
    reads_body (s := s.moveTo (visibleFrom s.tokens j)) hzero' hstop (hbehind _ (by decide)) hrender
  refine ⟨name, data, ?_, hshows, hshows'⟩
  have hpieces : s.indexPiece.2.stateName.2.skipHidden.bodyPiece = (data, s.moveTo k) := by
    rw [hindex, hname]
    exact hdata
  have hk' : visibleFrom s.tokens k = visibleFrom s.tokens stop := hk
  have hend : (s.moveTo (visibleFrom s.tokens stop)).passSign
      = s.moveTo (visibleFrom s.tokens stop) :=
    passSign_of_ne hbehind
  rw [statePieces_eq, hpieces, hindex, hname, skipHidden_moveTo, hk', hend]
  rfl

end Slicer

/-! ## 4. The keyword -/

section Keyword

variable {tokens : List Token} {last i stop : Int} {keyword x y : TokenId} {ids : List TokenId}

theorem afterAttributes?_of_ne (h : tokenAt tokens i ≠ .lit TokenId.leftBracket) :
    afterAttributes? tokens last i = some i := by
  rw [afterAttributes?, dif_neg h]

/-- A function has a parenthesis behind its name. -/
theorem function?_of_third (hzero : hiddenAt tokens i = 0)
    (hkeyword : keyword ≠ TokenId.leftBracket)
    (hy : y ≠ TokenId.leftParen) (h : Faces tokens i (keyword :: x :: y :: ids) stop) :
    function? tokens last i = none := by
  obtain ⟨htoken, hsecond⟩ := h.at_visible hzero
  have hstart : afterAttributes? tokens last i = some i :=
    afterAttributes?_of_ne (by rwa [htoken, ne_eq, Token.lit.injEq])
  -- A parenthesis two indices on would be a visible one.
  have hplain : ¬ (tokenAt tokens (i + 2) = .lit TokenId.leftParen ∧
      (tokenAt tokens (i + 1)).isLit = true) := by
    rintro ⟨hparen, hword⟩
    obtain ⟨-, hthird⟩ := hsecond.at_visible (hiddenAt_eq_zero_iff.mpr hword)
    rw [show i + 1 + 1 = i + 2 by omega] at hthird
    obtain ⟨htoken, -⟩ := hthird.at_visible (hiddenAt_eq_zero_iff.mpr (by rw [hparen]; rfl))
    exact hy (Token.lit.inj (htoken.symm.trans hparen))
  unfold function?
  rw [hstart]
  dsimp only
  rw [if_neg hplain, ite_self]

/-- The first brace or semicolon of a text without a brace and with a semicolon at its end is a
semicolon. -/
theorem Faces.indexOf?_unbraced (hstop : stop ≤ last + 1) (hids : TokenId.leftBrace ∉ ids)
    (h : Faces tokens i (ids ++ [TokenId.semicolon]) stop) :
    ∃ j, indexOf? tokens i last [TokenId.leftBrace, TokenId.semicolon] = some j ∧
      tokenAt tokens j = .lit TokenId.semicolon := by
  obtain ⟨before, after, hsplit, hbefore⟩ := List.eq_append_cons_of_mem
    (show TokenId.semicolon ∈ ids ++ [TokenId.semicolon] by simp)
  have hbrace : TokenId.leftBrace ∉ before := by
    intro hmem
    have hmem' : TokenId.leftBrace ∈ ids ++ [TokenId.semicolon] := by
      rw [hsplit]
      exact List.mem_append_left _ hmem
    rcases List.mem_append.mp hmem' with hin | hin
    · exact hids hin
    · exact absurd hin (by decide)
  rw [hsplit] at h
  have hnonneg := h.nonneg
  obtain ⟨w, rest, hrest, hw, hvisible, hbehind⟩ := h.cut
  have hle := hbehind.add_length_le
  have hlength := hrest.add_length (by simp)
  rw [List.length_append, List.length_cons] at hlength
  have hshowing : Showing (· ∈ before) w := hw.showing (by simp [hvisible])
  have hscan : scanFor tokens
      (fun t => t.isLit && [TokenId.leftBrace, TokenId.semicolon].contains t.id)
      (min last (tokens.length - 1)) i = ⟨(), i + w.length, true⟩ := by
    refine (hshowing.traverses fun id hid _ => if_neg ?_).stop (fun _ => rfl) hrest (by omega)
    have hne : id ≠ TokenId.leftBrace ∧ id ≠ TokenId.semicolon :=
      ⟨fun heq => hbrace (heq ▸ hid), fun heq => hbefore (heq ▸ hid)⟩
    simp [Token.isLit, Token.id, hne]
  refine ⟨i + w.length, ?_, hrest.append.tokenAt_eq⟩
  unfold indexOf?
  rw [show max i 0 = i by omega, hscan]
  rfl

/-- A function has a brace before any semicolon. -/
theorem function?_of_unbraced (hzero : hiddenAt tokens i = 0)
    (hkeyword : keyword ≠ TokenId.leftBracket)
    (hstop : stop ≤ last + 1) (hids : TokenId.leftBrace ∉ ids)
    (h : Faces tokens i (keyword :: x :: TokenId.leftParen :: (ids ++ [TokenId.semicolon])) stop) :
    function? tokens last i = none := by
  obtain ⟨htoken, hsecond⟩ := h.at_visible hzero
  have hstart : afterAttributes? tokens last i = some i :=
    afterAttributes?_of_ne (by rwa [htoken, ne_eq, Token.lit.injEq])
  unfold function?
  rw [hstart]
  dsimp only
  split
  · rfl
  · split
    · rename_i hparen
      obtain ⟨-, hthird⟩ := hsecond.at_visible (hiddenAt_eq_zero_iff.mpr hparen.2)
      rw [show i + 1 + 1 = i + 2 by omega] at hthird
      obtain ⟨-, hfourth⟩ := hthird.at_visible (hiddenAt_eq_zero_iff.mpr (by rw [hparen.1]; rfl))
      rw [show i + 2 + 1 = i + 3 by omega] at hfourth
      obtain ⟨j, hfound, hsemicolon⟩ := hfourth.indexOf?_unbraced hstop hids
      rw [hfound]
      dsimp only
      rw [if_neg (by rw [hsemicolon]; decide)]
    · rfl

/-- A state assignment is no function, unless it is a value in parentheses and with braces right
behind the keyword. -/
theorem StateText.function?_eq_none (st : StateText) {table : SpellingTable}
    (hkeyword : st.keyword ≠ TokenId.leftBracket) (hspelled : ∀ n ∈ st.index, n.Spelled table)
    (hnamed : st.name = none → st.body.isValue = true) (hstop : stop ≤ last + 1)
    (hplain : st.index = none → st.name = none → st.body.ids.head? = some TokenId.leftParen →
      TokenId.leftBrace ∉ st.body.ids ∨ function? tokens last i = none)
    (hzero : hiddenAt tokens i = 0) (h : Faces tokens i st.render stop) :
    function? tokens last i = none := by
  obtain ⟨keyword, _, _, _, index, name, body⟩ := st
  cases index with
  | some n => exact function?_of_third hzero hkeyword (hspelled n rfl).ne_leftParen h
  | none =>
    cases name with
    | some n =>
      obtain ⟨word, hword, _ | _⟩ := n
      · obtain ⟨y, ys, hbody, hy, -⟩ := body.exists_render
        have hfaces : Faces tokens i (keyword :: word :: y :: ys) stop := hbody ▸ h
        exact function?_of_third hzero hkeyword (fun heq => absurd (heq ▸ hy) (by decide)) hfaces
      · refine function?_of_third hzero hkeyword ?_ h
        rintro rfl
        cases hword
    | none =>
      cases body with
      | data g => cases hnamed rfl
      | value ids hne hunended =>
        obtain ⟨y, ys, rfl⟩ := List.exists_cons_of_ne_nil hne
        by_cases hy : y = TokenId.leftParen
        · subst hy
          rcases hplain rfl rfl rfl with hbrace | hnone
          · exact function?_of_unbraced hzero hkeyword hstop
              (fun hmem => hbrace (List.mem_cons_of_mem _ hmem)) h
          · exact hnone
        · exact function?_of_third hzero hkeyword hy h

/-- **The keyword of a state assignment leads it.** -/
theorem StateText.lead_eq {st : StateText} {table : SpellingTable}
    (hspelled : ∀ n ∈ st.index, n.Spelled table)
    (hnamed : st.name = none → st.body.isValue = true) (hstop : stop ≤ last + 1)
    (hplain : st.index = none → st.name = none → st.body.ids.head? = some TokenId.leftParen →
      TokenId.leftBrace ∉ st.body.ids ∨ function? tokens last i = none)
    (hzero : hiddenAt tokens i = 0) (h : Faces tokens i st.render stop) :
    Lead.of tokens last i = .token st.keyword := by
  obtain ⟨htoken, -⟩ := Faces.at_visible h hzero
  have hsign : ∀ x : TokenId, x.isSign = true → st.keyword ≠ x := by
    rintro x hx rfl
    exact Bool.false_ne_true (st.isWord.symm.trans hx)
  have hquote : ¬ Token.lit st.keyword = .lit TokenId.quote := by
    rw [Token.lit.injEq]
    exact hsign _ rfl
  have hdirective : ¬ (Token.lit st.keyword).id.isDirective = true := by
    rw [Token.id, st.undirected]
    exact Bool.false_ne_true
  unfold Lead.of
  dsimp only
  rw [htoken, if_neg hquote, if_neg (not_not_intro st.unqualified), if_neg hdirective,
    st.function?_eq_none (hsign _ rfl) hspelled hnamed hstop hplain hzero h]
  rfl

end Keyword

/-- The step to a declaration goes over hidden units. -/
theorem Slicer.nextFrom_token {s : Slicer} {id : TokenId} (storage : StorageClass)
    (hnonneg : 0 ≤ s.frame.cursor) (hlast : visibleFrom s.tokens s.frame.cursor ≤ s.frame.last)
    (hlength : visibleFrom s.tokens s.frame.cursor < s.tokens.length)
    (hlead : Lead.of s.tokens s.frame.last (visibleFrom s.tokens s.frame.cursor) = .token id) :
    nextFrom storage s = (⟨id, storage, true⟩,
      { s with
        token := id
        tokenIndex := visibleFrom s.tokens s.frame.cursor
        frame := { s.frame with cursor := visibleFrom s.tokens s.frame.cursor + 1 } }) := by
  induction hn : (s.tokens.length - s.frame.cursor).toNat using Nat.strongRecOn generalizing s with
  | ind n ih =>
    have hle := le_visibleFrom s.tokens s.frame.cursor
    have hlt : s.frame.cursor < s.tokens.length := by omega
    rw [nextFrom]
    dsimp only
    rw [if_neg (by omega), dif_neg (by omega)]
    rcases Nat.eq_zero_or_pos (hiddenAt s.tokens s.frame.cursor) with hzero | hpos
    · rw [visibleFrom_of_hiddenAt hzero] at hlead ⊢
      rw [if_neg (by omega), hlead]
    · rw [visibleFrom_of_hidden hpos] at hlast hlength hlead ⊢
      rw [if_pos hpos]
      exact ih _ (by simp only [moveTo_tokens, moveTo_cursor]; omega)
        (by simp only [moveTo_cursor]; omega) hlast hlength hlead rfl

namespace Slicer

/-- The slicer behind the keyword that is next, without any pieces. -/
def behindKeyword (s : Slicer) (id : TokenId) : Slicer :=
  { s with
    token := id
    tokenIndex := visibleFrom s.tokens s.frame.cursor
    frame := { s.frame with cursor := visibleFrom s.tokens s.frame.cursor + 1 }
    pieces := .empty }

/-- An expected keyword is read, and then the index and the pieces. -/
theorem readState_of_lead {s : Slicer} {id : TokenId} {expected : List TokenId}
    (hnonneg : 0 ≤ s.frame.cursor)
    (hlast : s.frame.cursor + 1 < s.frame.last)
    (hvisible : visibleFrom s.tokens s.frame.cursor ≤ s.frame.last)
    (hlength : visibleFrom s.tokens s.frame.cursor < s.tokens.length)
    (hlead : Lead.of s.tokens s.frame.last (visibleFrom s.tokens s.frame.cursor) = .token id)
    (hexpected : id ∈ expected) :
    s.readState expected = (.default, (s.behindKeyword id).statePieces) := by
  have hle := le_visibleFrom s.tokens s.frame.cursor
  have hinside : s.inBounds = true := inBounds_iff.mpr ⟨hnonneg, by omega⟩
  have hallowed : (s.behindKeyword id).expects id expected = (true, s.behindKeyword id) :=
    if_pos (List.contains_iff_mem.mpr hexpected)
  unfold readState next
  rw [hinside, if_neg (by decide), if_neg (by omega),
    nextFrom_token .default hnonneg hvisible hlength hlead]
  exact congrArg (fun read : Bool × Slicer =>
    if read.1 = true then (StorageClass.default, read.2.statePieces)
    else (.invalid, -1, read.2)) hallowed

/-- The brace of data without a name is taken for the name, and the data are not read. -/
theorem statePieces_unnamed {s : Slicer} (index : Option IndexText) {id : TokenId}
    {ids : List TokenId} {stop : Int} (hspelled : ∀ n ∈ index, n.Spelled s.table)
    (hid : id ∉ [TokenId.equals, TokenId.leftBrace, TokenId.semicolon, TokenId.quote])
    (h : Faces s.tokens s.frame.cursor
      (index.elim [] (fun n => [TokenId.leftBracket, n.id, TokenId.rightBracket]) ++
        TokenId.leftBrace :: id :: ids) stop) :
    ∃ i j, s.statePieces = (index.elim (-1) IndexText.value,
        (s.moveTo j).setPieces { Pieces.empty with name := Frame.ofBounds i i }) ∧
      tokenAt s.tokens i = .lit TokenId.leftBrace ∧ tokenAt s.tokens j = .lit id := by
  obtain ⟨i, hindex, hzero, hi⟩ := reads_index hspelled (fun _ => by decide) h
  obtain ⟨hbrace, hbehind⟩ := hi.at_visible hzero
  obtain ⟨-, hzero', htoken, -⟩ := hbehind.to_visible
  have hne : ∀ y ∈ [TokenId.equals, TokenId.leftBrace, TokenId.semicolon, TokenId.quote],
      (s.moveTo (visibleFrom s.tokens (i + 1))).here ≠ .lit y := by
    intro y hy heq
    rw [here_moveTo, htoken, Token.lit.injEq] at heq
    exact hid (heq ▸ hy)
  have hname : (s.moveTo i).stateName = (Frame.ofBounds i i, s.moveTo (i + 1)) := by
    unfold stateName
    rw [here_moveTo, hbrace, if_neg (by decide), if_neg (by decide)]
    rfl
  have hvisible := skipHidden_of_visible (s := s.moveTo (visibleFrom s.tokens (i + 1))) hzero'
  have hbody : (s.moveTo (visibleFrom s.tokens (i + 1))).bodyPiece
      = (Frame.empty, s.moveTo (visibleFrom s.tokens (i + 1))) := by
    unfold bodyPiece groupPiece
    rw [if_neg (hne _ (by decide)), hvisible]
    exact if_pos (.inr (hne _ (by decide)))
  have hpieces : s.indexPiece.2.stateName.2.skipHidden.bodyPiece
      = (Frame.empty, s.moveTo (visibleFrom s.tokens (i + 1))) := by
    rw [hindex, hname]
    exact hbody
  refine ⟨i, visibleFrom s.tokens (i + 1), ?_, hbrace, htoken⟩
  rw [statePieces_eq, hpieces, hindex, hname, hvisible, passSign_of_ne]
  · rfl
  · intro y hy
    exact hne y (List.mem_cons_of_mem _ (List.mem_cons_of_mem _ hy))

end Slicer

/-- **A state assignment is read.**  In front of anything but a semicolon or a quote, and with
hidden units between any two of its tokens, it gives the index and the frames of its name and of
what is assigned, and the cursor goes to the next visible token behind it.  Data have to have a
name, and a value in parentheses right behind the keyword has to be no function: it is none if it
has no brace. -/
theorem readState_assignment (s : Slicer) (expected : List TokenId) (st : StateText)
    (text rest : List Token)
    (hcursor : Rest s.tokens s.frame.cursor (text ++ rest)) (hmarked : WellMarked text)
    (hvisible : visible text = st.render) (hframe : s.frame.cursor + text.length ≤ s.frame.last + 1)
    (hexpected : st.keyword ∈ expected) (hspelled : ∀ n ∈ st.index, n.Spelled s.table)
    (hnamed : st.name = none → st.body.isValue = true)
    (hplain : st.index = none → st.name = none → st.body.ids.head? = some TokenId.leftParen →
      TokenId.leftBrace ∉ st.body.ids ∨
        function? s.tokens s.frame.last (visibleFrom s.tokens s.frame.cursor) = none)
    (hbehind : ∀ y ∈ [TokenId.semicolon, TokenId.quote],
      tokenAt s.tokens (visibleFrom s.tokens (s.frame.cursor + text.length)) ≠ .lit y) :
    ∃ name data, s.readState expected = (.default, st.indexValue,
        { s with
          token := st.keyword
          tokenIndex := visibleFrom s.tokens s.frame.cursor
          frame := { s.frame with cursor := visibleFrom s.tokens (s.frame.cursor + text.length) }
          pieces := { Pieces.empty with name, data } }) ∧
      name.Shows s.tokens st.nameWords ∧ data.Shows s.tokens st.body.ids := by
  have hfaces : Faces s.tokens s.frame.cursor st.render (s.frame.cursor + text.length) :=
    ⟨text, rest, hcursor, hmarked, hvisible, rfl⟩
  obtain ⟨hle, hzero, -, hkeyword, hpieces⟩ := Faces.to_visible hfaces
  have hlong := st.four_le_length
  have hlength : visibleFrom s.tokens s.frame.cursor + st.render.length
      ≤ s.frame.cursor + text.length :=
    hkeyword.add_length_le
  have hstop := hkeyword.stop_le_length
  have hlead : Lead.of s.tokens s.frame.last (visibleFrom s.tokens s.frame.cursor)
      = .token st.keyword :=
    st.lead_eq hspelled hnamed hframe hplain hzero hkeyword
  obtain ⟨name, data, hread, hname, hdata⟩ :=
    Slicer.reads_state (s := s.behindKeyword st.keyword) hspelled hnamed hframe hbehind hpieces
  refine ⟨name, data, ?_, hname, hdata⟩
  rw [Slicer.readState_of_lead hcursor.1 (by omega) (by omega) (by omega) hlead hexpected, hread]
  rfl

/-- An assignment with all its parts, and with a quoted closer in its data. -/
def sampler : StateText where
  keyword := 65
  isWord := by decide
  unqualified := by decide
  undirected := by decide
  index := some ⟨1024, 12⟩
  name := some ⟨1025, by decide, true⟩
  body := .data ⟨[1026, TokenId.quote, TokenId.rightBrace, TokenId.quote], by decide,
    .other (by decide) (by decide) (by decide)
      (@Grouped.quoted _ _ true [TokenId.rightBrace] [] rfl (by decide) .nil)⟩

/-- The assignment with hidden semicolons between all its tokens, in front of a mark out of
order. -/
theorem readState_assignment_sampler :
    let text := behindSemicolons sampler.render
    let s := Slicer.ofTokens (text ++ [.skipClose, .lit 65]) ⟨[⟨1024, Bytes.decimal 12⟩]⟩
    ∃ name data, s.readState [65] = (.default, 12,
        { s with
          token := 65
          tokenIndex := visibleFrom s.tokens 0
          frame := { s.frame with cursor := visibleFrom s.tokens text.length }
          pieces := { Pieces.empty with name, data } }) ∧
      name.Shows s.tokens [1025] ∧
      data.Shows s.tokens [1026, TokenId.quote, TokenId.rightBrace, TokenId.quote] := by
  intro text s
  obtain ⟨hmarked, hvisible⟩ := behindSemicolons_shows sampler.render
  have hspelled : sampler.index.all fun n =>
      (s.table.spelling? n.id == some (Bytes.decimal n.number)) := by cbv
  have hcursor : Rest s.tokens s.frame.cursor (text ++ [.skipClose, .lit 65]) :=
    ⟨Int.le_refl 0, rfl⟩
  -- The mark behind the assignment hides itself only.
  have hend := hcursor.append
  have hone : hiddenAt s.tokens (s.frame.cursor + text.length) = 1 := hend.hiddenAt_eq
  have hbehind : tokenAt s.tokens (visibleFrom s.tokens (s.frame.cursor + text.length))
      = .lit 65 := by
    rw [visibleFrom_of_hidden (by omega), hone, Int.natCast_one,
      visibleFrom_of_hiddenAt hend.tail.hiddenAt_eq]
    exact hend.tail.tokenAt_eq
  refine readState_assignment s [65] sampler text [.skipClose, .lit 65] hcursor hmarked
    hvisible (by decide) (by decide) ?_ ?_ ?_ ?_
  · intro n hn
    rw [hn, Option.all_some] at hspelled
    exact eq_of_beq hspelled
  · intro hnone
    cases hnone
  · intro hnone
    cases hnone
  · rw [hbehind, List.forall_mem_cons, List.forall_mem_singleton]
    exact ⟨by decide, by decide⟩

/-- Data without a name. -/
def unnamed : StateText where
  keyword := 65
  isWord := by decide
  unqualified := by decide
  undirected := by decide
  index := none
  name := none
  body := .data ⟨[1024], by decide, .other (by decide) (by decide) (by decide) .nil⟩

/-- A value in parentheses, with braces. -/
def parenthesized : StateText where
  keyword := 65
  isWord := by decide
  unqualified := by decide
  undirected := by decide
  index := none
  name := none
  body :=
    .value
      [TokenId.leftParen, 1024, TokenId.leftBrace, 1025, TokenId.rightBrace, TokenId.rightParen]
      (by decide)
      (.other (by decide) (by decide) (.other (by decide) (by decide)
        (.other (by decide) (by decide) (.other (by decide) (by decide)
          (.other (by decide) (by decide) (.other (by decide) (by decide) .nil))))))

/-- **What is misread**: the brace of data without a name is taken for the name, and the data are
not read; a value in parentheses with braces is taken for a function, and nothing is read. -/
theorem readState_misreads :
    (let tokens : List Token := unnamed.render.map .lit
     let read := (Slicer.ofTokens tokens ⟨[]⟩).readState [65]
     ∃ i, tokenAt tokens i = .lit TokenId.leftBrace ∧
       read.2.2.pieces = { Pieces.empty with name := Frame.ofBounds i i }) ∧
    (let read := (Slicer.ofTokens (parenthesized.render.map .lit) ⟨[]⟩).readState [65]
     read.1 = .invalid ∧ read.2.2.pieces = Pieces.empty ∧
       read.2.2.fragments = [⟨.function, Frame.ofBounds 0 6, TokenId.equals⟩]) := by
  refine ⟨?_, by cbv, by cbv, by cbv⟩
  intro tokens read
  have hstart : visibleFrom (unnamed.render.map .lit) 0 = 0 := by cbv
  have hlead : Lead.of (unnamed.render.map .lit) 3 0 = .token 65 := by cbv
  have hread : read = (.default, ((Slicer.ofTokens tokens ⟨[]⟩).behindKeyword 65).statePieces) :=
    Slicer.readState_of_lead (Int.le_refl 0) (by decide) (hstart.trans_le (by decide))
      (hstart.trans_lt (by decide)) ((congrArg (Lead.of tokens 3) hstart).trans hlead) (by decide)
  have hfaces : Faces tokens (visibleFrom tokens 0 + 1)
      [TokenId.leftBrace, 1024, TokenId.rightBrace] 4 := by
    rw [show visibleFrom tokens 0 = 0 from hstart]
    exact ⟨_, [], ⟨by decide, rfl⟩, .lit _ (.lit _ (.lit _ .nil)), by cbv, rfl⟩
  obtain ⟨i, j, hpieces, hbrace, -⟩ := Slicer.statePieces_unnamed
    (s := (Slicer.ofTokens tokens ⟨[]⟩).behindKeyword 65) none (by simp) (by decide) hfaces
  refine ⟨i, hbrace, ?_⟩
  rw [hread, hpieces]
  rfl

end EffectScript
