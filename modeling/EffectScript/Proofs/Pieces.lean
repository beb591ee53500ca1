import EffectScript.Declaration.Object
import EffectScript.Proofs.Standing

/-!
# The pieces of a declaration

A declaration is read piece by piece, and each reader of a piece moves the cursor of the slicer:
behind the piece, and behind a semicolon if one follows.  Here are the texts that the readers are
made for, and what each reader does where such a text stands, in front of anything and with hidden
units between any two tokens.

A slicer is described by what is visible from its cursor on (`Slicer.At`), and a reader by the piece
that its frame shows and by what is visible behind it (`Slicer.Reads`).

Main statements: `Slicer.At.reads_namePiece`, `Slicer.At.reads_groupPiece` and
`Slicer.At.reads_initializerPiece`.
-/

namespace EffectScript

/-! ## 1. Texts -/

/-- A text in which every `opener` has its `closer`.  If `quotes` are opaque, what stands between
two of them does not count; otherwise a quote is a token like any other. -/
inductive Grouped (opener closer : TokenId) (quotes : Bool) : List TokenId → Prop
  | nil : Grouped opener closer quotes []
  | other {id : TokenId} {rest : List TokenId} (hopener : id ≠ opener) (hcloser : id ≠ closer)
      (hquote : quotes = true → id ≠ TokenId.quote) :
      Grouped opener closer quotes rest → Grouped opener closer quotes (id :: rest)
  | quoted {inner rest : List TokenId} (hquotes : quotes = true) (hinner : TokenId.quote ∉ inner) :
      Grouped opener closer quotes rest →
      Grouped opener closer quotes ((TokenId.quote :: (inner ++ [TokenId.quote])) ++ rest)
  | group {inner rest : List TokenId} : Grouped opener closer quotes inner →
      Grouped opener closer quotes rest →
      Grouped opener closer quotes (opener :: (inner ++ closer :: rest))

/-- Whether a token ends an initializer that is a run of tokens. -/
def TokenId.endsRun (id : TokenId) : Bool :=
  id = semicolon || id = leftParen || id = leftBrace || id = less

/-- A run of tokens of which none ends an initializer, but for what stands between quotes. -/
inductive PlainRun : List TokenId → Prop
  | nil : PlainRun []
  | other {id : TokenId} {rest : List TokenId} (hend : id.endsRun = false)
      (hquote : id ≠ TokenId.quote) : PlainRun rest → PlainRun (id :: rest)
  | quoted {inner rest : List TokenId} (hinner : TokenId.quote ∉ inner) :
      PlainRun rest → PlainRun ((TokenId.quote :: (inner ++ [TokenId.quote])) ++ rest)

/-- A run starts neither a list nor an expression in parentheses. -/
theorem PlainRun.head_ne {id : TokenId} {ids : List TokenId} (h : PlainRun (id :: ids)) :
    id ≠ TokenId.leftBrace ∧ id ≠ TokenId.leftParen := by
  cases h with
  | other hend _ _ =>
    simp only [TokenId.endsRun, Bool.or_eq_false_iff, decide_eq_false_iff_not] at hend
    exact ⟨hend.1.2, hend.1.1.2⟩
  | quoted _ _ => decide

/-- What may enclose the group behind a name. -/
inductive Bracket where
  | square
  | round
  deriving DecidableEq, Repr

def Bracket.opener : Bracket → TokenId
  | square => TokenId.leftBracket
  | round => TokenId.leftParen

def Bracket.closer : Bracket → TokenId
  | square => TokenId.rightBracket
  | round => TokenId.rightParen

/-- A group behind a name, with neither its closer nor a semicolon inside. -/
structure NameGroup where
  bracket : Bracket
  inside : List TokenId
  unclosed : bracket.closer ∉ inside
  unended : TokenId.semicolon ∉ inside

def NameGroup.render (g : NameGroup) : List TokenId :=
  g.bracket.opener :: (g.inside ++ [g.bracket.closer])

/-- The last of the signs, which are the keywords from the bar on. -/
def TokenId.asterisk : TokenId := 43

/-- Whether an id is a sign and not a word. -/
def TokenId.isSign (id : TokenId) : Bool := orSign ≤ id && id ≤ asterisk

/-- A word, with a group behind it or without one. -/
structure NameText where
  word : TokenId
  isWord : word.isSign = false
  group : Option NameGroup

def NameText.groupIds (n : NameText) : List TokenId :=
  match n.group with
  | some g => g.render
  | none => []

def NameText.render (n : NameText) : List TokenId := n.word :: n.groupIds

/-- A text inside angle brackets or braces. -/
structure GroupText (opener closer : TokenId) where
  inside : List TokenId
  nonempty : inside ≠ []
  grouped : Grouped opener closer true inside

def GroupText.render {opener closer : TokenId} (g : GroupText opener closer) : List TokenId :=
  opener :: (g.inside ++ [closer])

/-- An initializer that is a run of tokens. -/
structure RunText where
  ids : List TokenId
  nonempty : ids ≠ []
  plain : PlainRun ids

/-- An initializer: a run of tokens, a list in braces without a semicolon, or one expression in
parentheses. -/
inductive ValueText where
  | run (r : RunText)
  | braces (inside : List TokenId) (unended : TokenId.semicolon ∉ inside)
  | parens (inside : List TokenId)
      (grouped : Grouped TokenId.leftParen TokenId.rightParen false inside)

def ValueText.render : ValueText → List TokenId
  | run r => r.ids
  | braces inside _ => TokenId.leftBrace :: (inside ++ [TokenId.rightBrace])
  | parens inside _ => TokenId.leftParen :: (inside ++ [TokenId.rightParen])

theorem ValueText.render_ne_nil (v : ValueText) : v.render ≠ [] := by
  cases v with
  | run r => exact r.nonempty
  | braces inside _ => exact List.cons_ne_nil _ _
  | parens inside _ => exact List.cons_ne_nil _ _

/-! ## 2. Scans over the texts -/

section Scans

variable {tokens : List Token} {last : Int}

/-- A scan that counts the depth of groups goes over a grouped text and has the depth it had. -/
theorem Grouped.crosses {opener closer : TokenId} {quotes : Bool} {text : List TokenId}
    {look : Int → Int → Token → Move Int} (h : Grouped opener closer quotes text)
    (hother : ∀ id, id ≠ opener → id ≠ closer → (quotes = true → id ≠ TokenId.quote) →
      ∀ depth, 1 ≤ depth → ∀ i, look depth i (.lit id) = .next depth)
    (hopener : ∀ depth, 1 ≤ depth → ∀ i, look depth i (.lit opener) = .next (depth + 1))
    (hcloser : ∀ depth, 1 ≤ depth → ∀ i, look (depth + 1) i (.lit closer) = .next depth)
    (hquote : quotes = true → ∀ depth i,
      look depth i (.lit TokenId.quote) = .jump depth (closingQuote tokens last i))
    (depth : Int) (hdepth : 1 ≤ depth) : Crosses tokens last look depth text depth := by
  induction h generalizing depth with
  | nil => exact .nil depth
  | other ho hc hq _ ih => exact .cons (hother _ ho hc hq depth hdepth) (ih depth hdepth)
  | quoted hquotes hinner _ ih =>
    exact (Crosses.quoted (hquote hquotes depth) hinner).append (ih depth hdepth)
  | group _ _ ihinner ihrest =>
    have hrest := Crosses.cons (hcloser depth hdepth) (ihrest depth hdepth)
    exact .cons (hopener depth hdepth) ((ihinner (depth + 1) (by omega)).append hrest)

/-- The scan for the end of an initializer goes over a run. -/
theorem PlainRun.crosses {text : List TokenId} (h : PlainRun text) :
    Crosses tokens last (fun (_ : Unit) i t =>
      if t = .lit TokenId.quote then .jump () (closingQuote tokens last i)
      else if t = .lit TokenId.semicolon ∨ t = .lit TokenId.leftParen ∨
          t = .lit TokenId.leftBrace ∨ t = .lit TokenId.less then
        .stop ()
      else .next ()) () text () := by
  induction h with
  | nil => exact .nil ()
  | other hend hquote _ ih =>
    refine .cons (fun i => ?_) ih
    simp only [TokenId.endsRun, Bool.or_eq_false_iff, decide_eq_false_iff_not] at hend
    simp [hquote, hend]
  | quoted hinner _ ih => exact (Crosses.quoted (fun i => if_pos rfl) hinner).append ih

end Scans

/-! ## 3. What is visible from the cursor on -/

/-- What is left of a text behind a semicolon, if it starts with one. -/
def dropSemicolon : List TokenId → List TokenId
  | [] => []
  | id :: ids => if id = TokenId.semicolon then ids else id :: ids

/-- The frame shows some tokens, and is empty if these are none. -/
def Frame.Shows (f : Frame) (tokens : List Token) (ids : List TokenId) : Prop :=
  visibleIds tokens f.first f.last = ids ∧ (f.isEmpty = true ↔ ids = [])

theorem Frame.empty_shows (tokens : List Token) : Frame.empty.Shows tokens [] := by
  refine ⟨?_, by decide⟩
  unfold visibleIds
  rw [scan_end]
  · rfl
  · show min (-1 : Int) _ < max 0 0
    omega

namespace Slicer

/-- The slicer has all its tokens in its frame, and those visible from its cursor on are `ids`. -/
structure At (s : Slicer) (ids : List TokenId) : Prop where
  last_eq : s.frame.last = s.tokens.length - 1
  stands : ∃ seen, Stands s.tokens s.frame.cursor seen ids

/-- A reader moved the cursor and nothing else: its frame shows `piece`, and `rest` is visible
behind it. -/
structure Reads (s : Slicer) (read : Frame × Slicer) (piece rest : List TokenId) : Prop where
  shows : read.1.Shows s.tokens piece
  moves : ∃ i seen, read.2 = s.moveTo i ∧ Stands s.tokens i seen rest

variable {s : Slicer} {id : TokenId} {ids piece rest : List TokenId}

@[simp] theorem skipHidden_tokens (s : Slicer) : s.skipHidden.tokens = s.tokens := rfl

@[simp] theorem skipHidden_last (s : Slicer) : s.skipHidden.frame.last = s.frame.last := rfl

@[simp] theorem skipHidden_cursor (s : Slicer) :
    s.skipHidden.frame.cursor = visibleFrom s.tokens s.frame.cursor := rfl

theorem At.moveTo {i : Int} {seen : List TokenId} (h : s.At ids)
    (hi : Stands s.tokens i seen rest) : (s.moveTo i).At rest :=
  ⟨h.last_eq, seen, hi⟩

theorem Reads.at_rest {read : Frame × Slicer} (hs : s.At ids) (h : s.Reads read piece rest) :
    read.2.At rest := by
  obtain ⟨i, seen, heq, hi⟩ := h.moves
  rw [heq]
  exact hs.moveTo hi

theorem Reads.tokens_eq {read : Frame × Slicer} (h : s.Reads read piece rest) :
    read.2.tokens = s.tokens := by
  obtain ⟨i, -, heq, -⟩ := h.moves
  rw [heq]
  rfl

/-- A reading that starts at another place is one of the slicer itself. -/
theorem Reads.of_moveTo {read : Frame × Slicer} {i : Int} (h : (s.moveTo i).Reads read piece rest) :
    s.Reads read piece rest :=
  ⟨h.shows, h.moves⟩

/-- Nothing is read where the cursor stays. -/
theorem At.reads_nothing (h : s.At ids) : s.Reads (Frame.empty, s) [] ids := by
  obtain ⟨seen, hi⟩ := h.stands
  exact ⟨Frame.empty_shows _, _, seen, rfl, hi⟩

theorem At.skipHidden (h : s.At ids) : s.skipHidden.At ids := by
  obtain ⟨seen, hi⟩ := h.stands
  exact h.moveTo hi.to_visible.1

theorem At.here_skipHidden (h : s.At ids) : s.skipHidden.here = .lit (ids.headD TokenId.eol) := by
  obtain ⟨seen, hi⟩ := h.stands
  obtain ⟨hvisible, hzero, -⟩ := hi.to_visible
  exact hvisible.tokenAt_eq hzero

theorem At.inBounds_skipHidden (h : s.At ids) (hids : ids ≠ []) : s.skipHidden.inBounds = true := by
  obtain ⟨seen, hi⟩ := h.stands
  have hvisible := hi.to_visible.1
  have hlength := hvisible.add_length_le
  have hnonneg := hvisible.nonneg
  have hpos := List.length_pos_iff.mpr hids
  have hlt : visibleFrom s.tokens s.frame.cursor < s.tokens.length := by omega
  simp [inBounds, hnonneg, hlt]

/-- A cursor in front of a visible token: where the token is, and what is behind it. -/
theorem At.token (h : s.At (id :: ids)) :
    ∃ seen, Stands s.tokens (visibleFrom s.tokens s.frame.cursor) seen (id :: ids) ∧
      tokenAt s.tokens (visibleFrom s.tokens s.frame.cursor) = .lit id ∧
      Stands s.tokens (visibleFrom s.tokens s.frame.cursor + 1) (seen ++ [id]) ids ∧
      visibleFrom s.tokens s.frame.cursor < s.tokens.length := by
  obtain ⟨seen, hi⟩ := h.stands
  obtain ⟨hvisible, hzero, -⟩ := hi.to_visible
  obtain ⟨htoken, hnext⟩ := hvisible.at_visible hzero
  have hlength := hnext.le_length
  exact ⟨seen, hvisible, htoken, hnext, by omega⟩

/-- The slicer behind the token that it is in front of. -/
theorem At.behind (h : s.At (id :: ids)) :
    (s.skipHidden.moveTo (s.skipHidden.frame.cursor + 1)).At ids := by
  obtain ⟨seen, -, -, hnext, -⟩ := h.token
  exact h.moveTo hnext

theorem At.passSemicolon {i : Int} {seen : List TokenId} (h : s.At ids)
    (hi : Stands s.tokens i seen rest) :
    ∃ j seen', s.passSemicolon i = s.moveTo j ∧ Stands s.tokens j seen' (dropSemicolon rest) := by
  obtain ⟨hvisible, hzero, -⟩ := hi.to_visible
  have hlast := h.last_eq
  unfold Slicer.passSemicolon
  cases rest with
  | nil =>
    have hend := hvisible.at_end hzero
    refine ⟨_, seen, if_neg ?_, hvisible⟩
    rintro ⟨hle, -⟩
    omega
  | cons id rest =>
    obtain ⟨htoken, hnext⟩ := hvisible.at_visible hzero
    have hlength := hvisible.add_length_le
    rw [List.length_cons] at hlength
    rw [dropSemicolon]
    by_cases hid : id = TokenId.semicolon
    · rw [if_pos hid]
      exact ⟨_, _, if_pos ⟨by omega, by rw [htoken, hid]⟩, hnext⟩
    · rw [if_neg hid]
      refine ⟨_, seen, if_neg ?_, hvisible⟩
      rintro ⟨-, hsemicolon⟩
      rw [htoken, Token.lit.injEq] at hsemicolon
      exact hid hsemicolon

/-- What a frame between two standing indices shows. -/
theorem shows_between {tokens : List Token} {first last stop : Int} {seen : List TokenId}
    (hfirst : Stands tokens first seen (piece ++ rest))
    (hstop : Stands tokens stop (seen ++ piece) rest) (hle : first ≤ stop) (hlast : last = stop - 1)
    (hpiece : piece ≠ []) :
    (Frame.ofBounds first last).Shows tokens piece ∧
      (Frame.ofBounds first last).isEmpty = false := by
  subst hlast
  have hne : first ≠ stop := by
    rintro rfl
    have hseen := (hfirst.unique hstop).1
    exact hpiece (by simpa using hseen)
  have hnonempty : (Frame.ofBounds first (stop - 1)).isEmpty = false := decide_eq_false (by
    show ¬ stop - 1 < first
    omega)
  exact ⟨⟨hfirst.visibleIds_eq hstop hle, by simp [hnonempty, hpiece]⟩, hnonempty⟩

/-- A reader that ends at the last token of its piece, and goes behind it and behind a semicolon. -/
theorem At.reads_between {first last stop : Int} {seen : List TokenId} (h : s.At ids)
    (hfirst : Stands s.tokens first seen (piece ++ rest))
    (hstop : Stands s.tokens stop (seen ++ piece) rest) (hle : first ≤ stop)
    (hlast : last = stop - 1) (hpiece : piece ≠ []) :
    s.Reads (Frame.ofBounds first last, s.passSemicolon stop) piece (dropSemicolon rest) :=
  ⟨(shows_between hfirst hstop hle hlast hpiece).1, h.passSemicolon hstop⟩

/-! ## 4. Names -/

theorem closer?_opener (b : Bracket) : closer? (.lit b.opener) = some b.closer := by
  cases b <;> rfl

/-- The group behind a name ends at its closer. -/
theorem groupLast_eq {tokens : List Token} {i : Int} {seen : List TokenId} (g : NameGroup)
    (h : Stands tokens (i + 1) seen (g.inside ++ g.bracket.closer :: rest)) :
    i < groupLast tokens (tokens.length - 1) g.bracket.closer i ∧
      Stands tokens (groupLast tokens (tokens.length - 1) g.bracket.closer i + 1)
        (seen ++ (g.inside ++ [g.bracket.closer])) rest := by
  have hcross : Crosses tokens (tokens.length - 1) (fun (_ : Bool) _ t =>
      if t = .lit g.bracket.closer then .stop false
      else if t = .lit TokenId.semicolon then .stop true
      else .next false) false g.inside false := by
    refine .idle fun id hid i => ?_
    have hcloser : id ≠ g.bracket.closer := fun heq => g.unclosed (heq ▸ hid)
    have hsemicolon : id ≠ TokenId.semicolon := fun heq => g.unended (heq ▸ hid)
    simp [hcloser, hsemicolon]
  obtain ⟨j, hij, hj, hzero, hscan⟩ :=
    hcross.stop (c := false) (fun _ => if_pos rfl) h (by omega)
  obtain ⟨-, hnext⟩ := hj.at_visible hzero
  have hlength := hj.add_length_le
  rw [List.length_cons] at hlength
  have heq : groupLast tokens (tokens.length - 1) g.bracket.closer i = j := by
    unfold groupLast
    rw [hscan]
    show min j _ = j
    omega
  rw [heq, ← List.append_assoc]
  exact ⟨by omega, hnext⟩

/-- **The name at the cursor**, with the group behind it.  A name without one is not in front of a
group. -/
theorem At.reads_namePiece (n : NameText) (h : s.At (n.render ++ rest))
    (hgroup : n.group = none → closer? (.lit (rest.headD TokenId.eol)) = none) :
    s.Reads s.namePiece n.render (dropSemicolon rest) := by
  have hat : s.At (n.word :: (n.groupIds ++ rest)) := h
  obtain ⟨seen, hfirst, -, hword, -⟩ := hat.token
  have hbounds := hat.inBounds_skipHidden (List.cons_ne_nil _ _)
  -- Whether there is a group is seen at the visible token behind the word.
  have hopening : tokenAt s.tokens (visibleFrom s.tokens (visibleFrom s.tokens s.frame.cursor + 1))
      = .lit ((n.groupIds ++ rest).headD TokenId.eol) := (h.moveTo hword).here_skipHidden
  refine Reads.of_moveTo (i := visibleFrom s.tokens s.frame.cursor) ?_
  unfold namePiece
  simp only [hbounds, if_true, skipHidden_tokens, skipHidden_cursor, skipHidden_last, hopening,
    h.last_eq]
  cases hn : n.group with
  | none =>
    have hids : n.groupIds = [] := by rw [NameText.groupIds, hn]
    rw [hids, List.nil_append] at hword
    rw [hids, List.nil_append, hgroup hn]
    exact h.skipHidden.reads_between hfirst (by rwa [NameText.render, hids])
      (Int.le_of_lt (Int.lt_succ _)) (Int.add_sub_cancel _ 1).symm (List.cons_ne_nil _ _)
  | some g =>
    have hids : n.groupIds = g.render := by rw [NameText.groupIds, hn]
    obtain ⟨hvisible, hzero, hle⟩ := hword.to_visible
    have hrender : n.groupIds ++ rest
        = g.bracket.opener :: (g.inside ++ g.bracket.closer :: rest) := by
      rw [hids, NameGroup.render, List.cons_append, List.append_assoc, List.singleton_append]
    rw [hrender] at hvisible
    obtain ⟨-, hinside⟩ := hvisible.at_visible hzero
    obtain ⟨hlt, hstop⟩ := groupLast_eq g hinside
    rw [hrender, List.headD_cons, closer?_opener]
    refine h.skipHidden.reads_between hfirst ?_ ?_ (Int.add_sub_cancel _ 1).symm
      (List.cons_ne_nil _ _)
    · rw [NameText.render, hids]
      simpa [NameGroup.render] using hstop
    · show visibleFrom s.tokens s.frame.cursor ≤ groupLast s.tokens _ _ _ + 1
      omega

/-! ## 5. Groups -/

/-- The scan for the closer of a group ends at it, behind a grouped text. -/
theorem scanGroup_eq {tokens : List Token} {opener closer : TokenId} {text : List TokenId} {i : Int}
    {seen : List TokenId} (hquote : opener ≠ TokenId.quote) (hcloser : closer ≠ TokenId.quote)
    (hne : opener ≠ closer) (htext : Grouped opener closer true text)
    (h : Stands tokens i seen (text ++ closer :: rest)) :
    ∃ j, i ≤ j ∧ Stands tokens j (seen ++ text) (closer :: rest) ∧ hiddenAt tokens j = 0 ∧
      scanGroup tokens (tokens.length - 1) opener closer i = ⟨0, j, true⟩ := by
  refine Crosses.stop (htext.crosses ?_ ?_ ?_ ?_ 1 (Int.le_refl 1)) ?_ h (by omega)
  · intro id ho hc hq depth _ i
    simp [ho, hc, hq rfl]
  · intro depth _ i
    simp [hquote, hne]
  · intro depth hdepth i
    simp only [Token.lit.injEq, hcloser, false_and, if_false, if_true]
    rw [if_neg (by omega), Int.add_sub_cancel]
  · intro _ depth i
    simp [hquote]
  · intro i
    simp [hcloser]

/-- **The inside of the group at the cursor.** -/
theorem At.reads_groupPiece {opener closer : TokenId} (g : GroupText opener closer)
    (hquote : opener ≠ TokenId.quote) (hcloser : closer ≠ TokenId.quote) (hne : opener ≠ closer)
    (h : s.At (g.render ++ rest)) :
    s.Reads (s.groupPiece opener closer) g.inside (dropSemicolon rest) := by
  have hat : s.At (opener :: (g.inside ++ closer :: rest)) := by
    rw [List.append_cons g.inside]
    exact h
  obtain ⟨seen, -, htoken, hinside, hlt⟩ := hat.token
  have hlast : s.skipHidden.frame.last = s.tokens.length - 1 := h.last_eq
  obtain ⟨j, hle, hj, hzero, hscan⟩ := scanGroup_eq hquote hcloser hne g.grouped hinside
  obtain ⟨-, hbehind⟩ := hj.at_visible hzero
  have hbound := hj.add_length_le
  have hstart := hinside.nonneg
  rw [List.length_cons] at hbound
  have hopen : ¬ (s.skipHidden.frame.last < s.skipHidden.frame.cursor ∨
      s.skipHidden.here ≠ .lit opener) := by
    rintro (hbeyond | hother)
    · rw [skipHidden_cursor] at hbeyond
      omega
    · exact hother htoken
  have hfirst : indexAfter s.skipHidden.tokens.length s.skipHidden.frame.cursor
      = visibleFrom s.tokens s.frame.cursor + 1 := indexAfter_of_lt hlt
  have hbefore : indexBefore j = j - 1 := by
    unfold indexBefore
    rw [if_neg (by unfold leastIndex; omega)]
  have hafter : indexAfter s.skipHidden.tokens.length j = j + 1 := indexAfter_of_lt (by
    show j < (s.tokens.length : Int)
    omega)
  have hscan' : scanGroup s.skipHidden.tokens s.skipHidden.frame.last opener closer
      (visibleFrom s.tokens s.frame.cursor + 1) = ⟨0, j, true⟩ := hlast ▸ hscan
  obtain ⟨hshows, hnonempty⟩ := shows_between hinside hj hle rfl g.nonempty
  refine Reads.of_moveTo (i := visibleFrom s.tokens s.frame.cursor) ?_
  unfold groupPiece
  simp only [if_neg hopen, hfirst, hscan', hbefore, hafter, if_true, hnonempty, Bool.false_eq_true,
    if_false]
  exact ⟨hshows, h.skipHidden.passSemicolon hbehind⟩

/-- No group is read where the cursor is at no opener. -/
theorem At.reads_no_group {opener closer : TokenId} (h : s.At ids)
    (hopener : ids.headD TokenId.eol ≠ opener) : s.Reads (s.groupPiece opener closer) [] ids := by
  have hother : s.skipHidden.here ≠ .lit opener := by
    rw [h.here_skipHidden, ne_eq, Token.lit.injEq]
    exact hopener
  refine Reads.of_moveTo (i := visibleFrom s.tokens s.frame.cursor) ?_
  unfold groupPiece
  simp only [hother, ne_eq, not_false_eq_true, or_true, if_true]
  exact h.skipHidden.reads_nothing

/-! ## 6. Initializers -/

variable {tokens : List Token} {i : Int} {seen : List TokenId}

/-- A list in braces ends at its semicolon. -/
theorem initializerEnd_braces {inside : List TokenId} (hinside : TokenId.semicolon ∉ inside)
    (htoken : tokenAt tokens i = .lit TokenId.leftBrace)
    (h : Stands tokens (i + 1) seen
      ((inside ++ [TokenId.rightBrace]) ++ TokenId.semicolon :: rest)) :
    i ≤ initializerEnd tokens (tokens.length - 1) i ∧
      Stands tokens (initializerEnd tokens (tokens.length - 1) i)
        (seen ++ (inside ++ [TokenId.rightBrace])) (TokenId.semicolon :: rest) := by
  have hcross : Crosses tokens (tokens.length - 1 - 1)
      (fun (_ : Unit) _ t => if t == .lit TokenId.semicolon then .stop () else .next ()) ()
      (inside ++ [TokenId.rightBrace]) () := by
    refine .idle fun id hid _ => if_neg ?_
    rw [beq_iff_eq, Token.lit.injEq]
    rintro rfl
    rcases List.mem_append.mp hid with hid | hid
    · exact hinside hid
    · exact absurd (List.mem_singleton.mp hid) (by decide)
  obtain ⟨hle, hstop⟩ := hcross.index_eq (c := ()) (fun _ => rfl) h (by omega)
  have heq : initializerEnd tokens (tokens.length - 1) i = _ := if_pos htoken
  rw [heq]
  exact ⟨Int.le_trans (Int.le_of_lt (Int.lt_succ i)) hle, hstop⟩

/-- An expression in parentheses ends at the semicolon behind it. -/
theorem initializerEnd_parens {inside : List TokenId}
    (hinside : Grouped TokenId.leftParen TokenId.rightParen false inside)
    (htoken : tokenAt tokens i = .lit TokenId.leftParen)
    (h : Stands tokens (i + 1) seen
      ((inside ++ [TokenId.rightParen]) ++ TokenId.semicolon :: rest)) :
    i ≤ initializerEnd tokens (tokens.length - 1) i ∧
      Stands tokens (initializerEnd tokens (tokens.length - 1) i)
        (seen ++ (inside ++ [TokenId.rightParen])) (TokenId.semicolon :: rest) := by
  have hcross : Crosses tokens (tokens.length - 1 - 1) (fun (depth : Int) _ t =>
      if depth = 0 ∧
          (t = .lit TokenId.semicolon ∨ t = .lit TokenId.less ∨ t = .lit TokenId.equals) then
        .stop depth
      else if t = .lit TokenId.leftParen then .next (depth + 1)
      else if t = .lit TokenId.rightParen then .next (depth - 1)
      else .next depth) 1 (inside ++ [TokenId.rightParen]) 0 := by
    refine (hinside.crosses ?_ ?_ ?_ ?_ 1 (Int.le_refl 1)).append (.next fun _ => rfl)
    · intro id hopener hcloser _ depth hdepth _
      rw [if_neg (by omega), if_neg (by simpa using hopener), if_neg (by simpa using hcloser)]
    · intro depth hdepth _
      rw [if_neg (by omega), if_pos rfl]
    · intro depth hdepth _
      rw [if_neg (by omega), if_neg (by decide), if_pos rfl, Int.add_sub_cancel]
    · exact fun hquotes => Bool.noConfusion hquotes
  obtain ⟨hle, hstop⟩ := hcross.index_eq (c := 0) (fun _ => rfl) h (by omega)
  have heq : initializerEnd tokens (tokens.length - 1) i = _ :=
    (if_neg (by rw [htoken]; decide)).trans (if_pos htoken)
  rw [heq]
  exact ⟨Int.le_trans (Int.le_of_lt (Int.lt_succ i)) hle, hstop⟩

/-- A run of tokens ends at a token that ends runs. -/
theorem initializerEnd_run {y : TokenId} (r : RunText) (hy : y.endsRun = true)
    (h : Stands tokens i seen (r.ids ++ y :: rest)) (hzero : hiddenAt tokens i = 0) :
    i ≤ initializerEnd tokens (tokens.length - 1) i ∧
      Stands tokens (initializerEnd tokens (tokens.length - 1) i) (seen ++ r.ids) (y :: rest) := by
  have hhead : tokenAt tokens i ≠ .lit TokenId.leftBrace ∧
      tokenAt tokens i ≠ .lit TokenId.leftParen := by
    obtain ⟨_ | ⟨id, ids⟩, hne, hplain⟩ := r
    · exact absurd rfl hne
    · rw [(h.at_visible hzero).1]
      simpa using hplain.head_ne
  have hlook : ∀ i, (if Token.lit y = .lit TokenId.quote then
        Move.jump () (closingQuote tokens (tokens.length - 1) i)
      else if Token.lit y = .lit TokenId.semicolon ∨ Token.lit y = .lit TokenId.leftParen ∨
          Token.lit y = .lit TokenId.leftBrace ∨ Token.lit y = .lit TokenId.less then .stop ()
      else .next ()) = Move.stop () := by
    simp only [TokenId.endsRun, Bool.or_eq_true, decide_eq_true_eq] at hy
    intro i
    rcases hy with ((rfl | rfl) | rfl) | rfl <;> rfl
  have heq : initializerEnd tokens (tokens.length - 1) i = _ :=
    (if_neg hhead.1).trans (if_neg hhead.2)
  rw [heq]
  exact r.plain.crosses.index_eq hlook h (by omega)

/-- Where an initializer ends: at the semicolon behind it, or, if it is a run, at the brace behind
it. -/
theorem initializerEnd_eq {y : TokenId} (v : ValueText)
    (hy : y = TokenId.semicolon ∨ y = TokenId.leftBrace ∧ ∃ r, v = .run r)
    (h : Stands tokens i seen (v.render ++ y :: rest)) (hzero : hiddenAt tokens i = 0) :
    i ≤ initializerEnd tokens (tokens.length - 1) i ∧
      Stands tokens (initializerEnd tokens (tokens.length - 1) i) (seen ++ v.render)
        (y :: rest) := by
  cases v with
  | run r =>
    refine initializerEnd_run r ?_ h hzero
    rcases hy with rfl | ⟨rfl, -⟩ <;> rfl
  | braces inside hinside =>
    obtain rfl : y = TokenId.semicolon := hy.resolve_right (by simp)
    obtain ⟨htoken, hnext⟩ := Stands.at_visible h hzero
    have hend := initializerEnd_braces hinside htoken hnext
    rwa [List.append_assoc] at hend
  | parens inside hinside =>
    obtain rfl : y = TokenId.semicolon := hy.resolve_right (by simp)
    obtain ⟨htoken, hnext⟩ := Stands.at_visible h hzero
    have hend := initializerEnd_parens hinside htoken hnext
    rwa [List.append_assoc] at hend

/-- **The initializer at the cursor**, in front of a semicolon, or of a brace if it is a run. -/
theorem At.reads_initializerPiece {y : TokenId} (v : ValueText)
    (hy : y = TokenId.semicolon ∨ y = TokenId.leftBrace ∧ ∃ r, v = .run r)
    (h : s.At (v.render ++ y :: rest)) :
    s.Reads s.initializerPiece v.render (dropSemicolon (y :: rest)) := by
  obtain ⟨seen, hi⟩ := h.stands
  obtain ⟨hvisible, hzero, -⟩ := hi.to_visible
  have hbounds := h.inBounds_skipHidden (by simp)
  obtain ⟨hle, hstop⟩ := initializerEnd_eq v hy hvisible hzero
  refine Reads.of_moveTo (i := visibleFrom s.tokens s.frame.cursor) ?_
  unfold initializerPiece
  simp only [hbounds, if_true, skipHidden_tokens, skipHidden_cursor, skipHidden_last, h.last_eq]
  exact h.skipHidden.reads_between hvisible hstop hle rfl v.render_ne_nil

end Slicer

end EffectScript
