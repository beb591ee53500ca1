import Mathlib
import EffectScript.Proofs.Marking
import EffectScript.Proofs.Wording
import EffectScript.Script.Layout

/-!
# Laid-out text is read back

`layout` writes the spellings of some ids with blanks, line breaks and indentation between them, and
reading cuts a text into lexemes again.  The two meet in one relation: a text *sets lexemes apart*
(`SetApart`) when it is these lexemes in order, with gaps of blanks between them, and no lexeme runs
into the text behind it: a word is followed by a delimiter, and a slash starts no comment.

Reading such a text gives the ids of the lexemes (`readFrom_setApart`), and what `layout` writes is
such a text (`layoutFrom_setApart`).  In front of the text that is still to be written, layout only
knows the last byte that it wrote, so this is what the induction carries: behind a byte that is no
delimiter the text starts with one, and it starts with a blank or with its first lexeme.

Words that reading does not take for themselves are left out: those that start an inclusion or a
definition, and those that open a conditional, whose id depends on the rest of their line.
-/

namespace EffectScript

/-! ## 1. Lexemes in front of a text -/

namespace Lexeme

/-- A text that is one lexeme: a single delimiter that is no blank, or a run of bytes that are no
delimiters. -/
inductive IsLexeme : Bytes → Prop
  | sign {c : UInt8} (hsign : isDelimiter c) (hblank : isBlank c = false) : IsLexeme [c]
  | run {c : UInt8} {rest : Bytes} (hrun : ∀ d ∈ c :: rest, isDelimiter d = false) :
      IsLexeme (c :: rest)

/-- The text behind a lexeme does not go on with it, neither as a word nor as a comment. -/
structure Ends (lexeme text : Bytes) : Prop where
  word : ∀ a, lexeme.getLast? = some a → isDelimiter a = false →
    ∀ c, text.head? = some c → isDelimiter c
  comment : lexeme = [slash] → ∀ c, text.head? = some c → c ≠ slash ∧ c ≠ star

/-- Line ends and spaces only. -/
def Gap (text : Bytes) : Prop := ∀ c ∈ text, c = newline ∨ c = 0x20

theorem isDelimiter_of_isBlank {c : UInt8} (h : isBlank c) : isDelimiter c := by
  cases hd : isDelimiter c with
  | true => rfl
  | false =>
    rw [isBlank_eq_false hd] at h
    cases h

theorem Gap.isBlank {gap : Bytes} (h : Gap gap) {c : UInt8} (hc : c ∈ gap) : isBlank c := by
  rcases h c hc with rfl | rfl
  · rfl
  · rfl

theorem Gap.append {gap more : Bytes} (h : Gap gap) (h' : Gap more) : Gap (gap ++ more) :=
  List.forall_mem_append.mpr ⟨h, h'⟩

theorem gap_lineBreak (level : Nat) : Gap (lineBreak level) := by
  intro c hc
  rcases List.mem_cons.mp hc with rfl | hc
  · exact .inl rfl
  · exact .inr (List.eq_of_mem_replicate hc)

theorem IsLexeme.ne_nil {l : Bytes} (h : IsLexeme l) : l ≠ [] := by
  rintro rfl
  cases h

theorem IsLexeme.solid {l : Bytes} (h : IsLexeme l) : Solid l := by
  cases h with
  | sign _ hblank => exact List.forall_mem_singleton.mpr hblank
  | run hrun => exact fun c hc => isBlank_eq_false (hrun c hc)

/-- A lexeme that starts with a delimiter is that delimiter. -/
theorem IsLexeme.eq_nil {c : UInt8} {rest : Bytes} (h : IsLexeme (c :: rest)) (hc : isDelimiter c) :
    rest = [] := by
  cases h with
  | sign => rfl
  | run hrun =>
    rw [hrun c List.mem_cons_self] at hc
    cases hc

theorem isLexeme_iff {l : Bytes} :
    IsLexeme l ↔ l ≠ [] ∧ ((∀ c ∈ l, isDelimiter c = false) ∨ l.length = 1 ∧ Solid l) := by
  constructor
  · intro h
    refine ⟨h.ne_nil, ?_⟩
    cases h with
    | sign hsign hblank => exact .inr ⟨rfl, List.forall_mem_singleton.mpr hblank⟩
    | run hrun => exact .inl hrun
  · rintro ⟨hne, hrun | ⟨hone, hsolid⟩⟩
    · obtain ⟨c, rest, rfl⟩ := List.exists_cons_of_ne_nil hne
      exact .run hrun
    · obtain ⟨c, rfl⟩ := List.length_eq_one_iff.mp hone
      cases hc : isDelimiter c with
      | true => exact .sign hc (hsolid c List.mem_cons_self)
      | false => exact .run (List.forall_mem_singleton.mpr hc)

instance : DecidablePred IsLexeme := fun l =>
  have : Decidable (Solid l) := inferInstanceAs (Decidable (∀ c ∈ l, Lexeme.isBlank c = false))
  decidable_of_iff _ isLexeme_iff.symm

theorem skipBlank_of_nil {text : Bytes} (h : text.dropWhile Lexeme.isBlank = []) :
    skipBlank text = [] := by
  rw [skipBlank]
  split
  · rfl
  · simp_all

/-- Where no comment starts, only the blanks are skipped. -/
theorem skipBlank_of_none {text rest : Bytes} {c : UInt8}
    (h : text.dropWhile Lexeme.isBlank = c :: rest) (hcomment : dropComment? (c :: rest) = none) :
    skipBlank text = c :: rest := by
  rw [skipBlank]
  split
  · simp_all
  · rename_i heq
    rw [h] at heq
    cases heq
    split
    · simp_all
    · rfl

/-- No comment starts with a lexeme that the text behind it does not go on with. -/
theorem dropComment?_append {l text : Bytes} (h : IsLexeme l) (hends : Ends l text) :
    dropComment? (l ++ text) = none := by
  have hother : ∀ c d tail, c ≠ slash → dropComment? (c :: d :: tail) = none := by
    intro c d tail hc
    simp only [dropComment?, hc, false_and, if_false]
  cases h with
  | @sign c hsign hblank =>
    cases text with
    | nil => rfl
    | cons d tail =>
      by_cases hc : c = slash
      · obtain ⟨hslash, hstar⟩ := hends.comment (by rw [hc]) d rfl
        simp only [List.singleton_append, dropComment?, hslash, hstar, and_false, if_false]
      · exact hother c d tail hc
  | @run c rest hrun =>
    have hc : c ≠ slash := by
      rintro rfl
      exact absurd (hrun slash List.mem_cons_self) (by decide)
    rw [List.cons_append]
    cases hrest : rest ++ text with
    | nil => rfl
    | cons d tail => exact hother c d tail hc

/-- **The next lexeme is the one that stands there**, when the text behind it does not go on with a
word. -/
theorem next?_lexeme {l text : Bytes} (h : IsLexeme l)
    (hword : ∀ a, l.getLast? = some a → isDelimiter a = false →
      ∀ c, text.head? = some c → isDelimiter c) : next? (l ++ text) = some (l, text) := by
  cases h with
  | @sign c hsign hblank =>
    unfold next?
    rw [List.singleton_append, List.dropWhile_cons_of_neg (by simp [hblank])]
    exact if_pos hsign
  | @run c rest hrun =>
    have hc := hrun c List.mem_cons_self
    have hrest : ∀ d ∈ rest, (!isDelimiter d) = true := fun d hd => by
      rw [hrun d (List.mem_cons_of_mem _ hd), Bool.not_false]
    have hstop : text.takeWhile (!isDelimiter ·) = [] ∧ text.dropWhile (!isDelimiter ·) = text := by
      cases text with
      | nil => exact ⟨rfl, rfl⟩
      | cons d tail =>
        have hlast : isDelimiter ((c :: rest).getLast (List.cons_ne_nil c rest)) = false :=
          hrun _ (List.getLast_mem _)
        have hd := hword _ (List.getLast?_eq_some_getLast _) hlast d rfl
        exact ⟨List.takeWhile_cons_of_neg (by simp [hd]), List.dropWhile_cons_of_neg (by simp [hd])⟩
    unfold next?
    rw [List.cons_append, List.dropWhile_cons_of_neg (by simp [isBlank_eq_false hc])]
    simp only [hc, Bool.false_eq_true, if_false]
    rw [List.takeWhile_append_of_pos hrest, List.dropWhile_append_of_pos hrest, hstop.1, hstop.2,
      List.append_nil]

theorem next?_append {l text : Bytes} (h : IsLexeme l) (hends : Ends l text) :
    next? (l ++ text) = some (l, text) :=
  next?_lexeme h hends.word

/-- Where no comment starts, skipping leads to the first lexeme. -/
theorem skipBlank_lexeme {gap lexeme rest : Bytes} (hgap : ∀ c ∈ gap, isBlank c)
    (h : IsLexeme lexeme) (hends : Ends lexeme rest) :
    skipBlank (gap ++ (lexeme ++ rest)) = lexeme ++ rest := by
  obtain ⟨c, tail, rfl⟩ := List.exists_cons_of_ne_nil h.ne_nil
  refine skipBlank_of_none ?_ (dropComment?_append h hends)
  rw [List.dropWhile_append_of_pos hgap]
  exact List.dropWhile_cons_of_neg (by simp [h.solid c List.mem_cons_self])

end Lexeme

open Lexeme

/-! ## 2. Words that are read as themselves -/

/-- The words that govern the text behind them: they start an inclusion or a definition, or open a
conditional, whose id depends on the rest of its line. -/
def governingWords : List Bytes :=
  ["#include", "#define", "#if", "#ifdef", "#ifndef"].map Bytes.ofString

/-- An id that opens a conditional is spelled in one way. -/
theorem isEarlyTest_ofSpelling {l : Bytes} (h : l ∉ governingWords) :
    (TokenId.ofSpelling l).isEarlyTest = false := by
  have hspelled : ∀ id : TokenId, id.isEarlyTest →
      id.isReserved ∧ ∃ s ∈ governingWords, id.keyword? = some s := by
    intro id hid
    simp only [TokenId.isEarlyTest, Bool.or_eq_true, decide_eq_true_eq] at hid
    rcases hid with (rfl | rfl) | rfl
    · exact ⟨rfl, Bytes.ofString "#if", by decide, by decide⟩
    · exact ⟨rfl, Bytes.ofString "#ifdef", by decide, by decide⟩
    · exact ⟨rfl, Bytes.ofString "#ifndef", by decide, by decide⟩
  rw [Bool.eq_false_iff]
  intro htest
  obtain ⟨hreserved, s, hs, hkeyword⟩ := hspelled _ htest
  cases hfind : Vocabulary.find? l with
  | some id =>
    rw [TokenId.ofSpelling, hfind, Option.getD_some, Vocabulary.keyword?_of_find? hfind] at hkeyword
    cases hkeyword
    exact h hs
  | none =>
    rw [TokenId.ofSpelling, hfind, Option.getD_none, TokenId.isReserved_hash] at hreserved
    cases hreserved

/-- **The next item is the word that stands behind the gap.** -/
theorem Item.next?_gap (total : Nat) {gap l text : Bytes} (hgap : Gap gap) (hl : IsLexeme l)
    (hends : Ends l text) (hplain : l ∉ governingWords) :
    Item.next? total (gap ++ (l ++ text)) = .ok (some (.word ⟨l, false⟩, text)) := by
  have hskip := skipBlank_lexeme (fun c hc => hgap.isBlank hc) hl hends
  have hinclude : l ≠ includeWord := by
    rintro rfl
    exact hplain (by decide)
  have hdefine : l ≠ defineWord := by
    rintro rfl
    exact hplain (by decide)
  unfold Item.next?
  rw [hskip, next?_append hl hends]
  simp only [Item.ofLexeme, hinclude, hdefine, if_false, Word.ofLexeme,
    isEarlyTest_ofSpelling hplain, Bool.false_and]
  rfl

theorem Item.next?_blank (total : Nat) {text : Bytes} (h : ∀ c ∈ text, isBlank c) :
    Item.next? total text = .ok none := by
  rw [Item.next?, skipBlank_of_nil (List.dropWhile_eq_nil_iff.mpr h)]
  rfl

/-! ## 3. Texts that set lexemes apart -/

/-- The text is the lexemes in order, with gaps between them, and none of them goes on in the text
behind it. -/
inductive SetApart : List Bytes → Bytes → Prop
  | done {gap : Bytes} (hgap : Gap gap) : SetApart [] gap
  | lexeme {gap l text : Bytes} {more : List Bytes} (hgap : Gap gap) (hends : Ends l text)
      (hmore : SetApart more text) : SetApart (l :: more) (gap ++ (l ++ text))

/-- Another gap may stand in front. -/
theorem SetApart.indent {lexemes : List Bytes} {gap text : Bytes} (hgap : Gap gap)
    (h : SetApart lexemes text) : SetApart lexemes (gap ++ text) := by
  cases h with
  | done h' => exact .done (hgap.append h')
  | lexeme h' hends hmore =>
    rw [← List.append_assoc]
    exact .lexeme (hgap.append h') hends hmore

/-- The lexemes as words of the first pass. -/
def plainWords (lexemes : List Bytes) : List Word := lexemes.map (⟨·, false⟩)

/-- **Reading a text that sets lexemes apart interns them.** -/
theorem readFrom_setApart (total : Nat) {lexemes : List Bytes} {text : Bytes}
    {table table' : SpellingTable} {ids : List TokenId} (h : SetApart lexemes text)
    (hlexemes : ∀ l ∈ lexemes, IsLexeme l ∧ l ∉ governingWords)
    (hintern : Script.internWords table (plainWords lexemes) = .ok (ids, table')) :
    Script.readFrom total text table = .ok (ids, table') := by
  induction h generalizing table ids with
  | done hgap =>
    cases hintern
    exact Script.readFrom_end (Item.next?_blank total fun c hc => hgap.isBlank hc) _
  | @lexeme gap l text others hgap hends _ ih =>
    obtain ⟨⟨hl, hplain⟩, hrest⟩ := List.forall_mem_cons.mp hlexemes
    rw [plainWords, List.map_cons, Script.internWords] at hintern
    split at hintern
    · cases hintern
    · rename_i id table₁ hword
      split at hintern
      · cases hintern
      · rename_i more table₂ hwords
        cases hintern
        have hitem : Script.internItem table (.word ⟨l, false⟩) = .ok ([id], table₁) := by
          simp only [Script.internItem, hword]
        exact Script.readFrom_item (Item.next?_gap total hgap hl hends hplain) hitem
          (ih hrest hwords)

/-! ## 4. What layout writes -/

/-- The table spells the ids as the lexemes. -/
def SpelledBy (table : SpellingTable) (ids : List TokenId) (lexemes : List Bytes) : Prop :=
  List.Forall₂ (fun id l => table.spelling? id = some l) ids lexemes

/-- The last byte written and the text to be written meet as they should: behind a byte that is no
delimiter, the text starts with one. -/
def Joins (last : Option UInt8) (text : Bytes) : Prop :=
  ∀ a, last = some a → isDelimiter a = false → ∀ c, text.head? = some c → isDelimiter c

/-- The text starts with a blank or with its first lexeme. -/
def StartsWith (lexemes : List Bytes) (text : Bytes) : Prop :=
  ∀ c, text.head? = some c → isBlank c ∨ ∃ l more, lexemes = l :: more ∧ l.head? = some c

/-- **Around its spelling, a token is laid out with gaps only**, and one is in front where the text
before needs it. -/
theorem exists_gaps_layoutToken (table : SpellingTable) {id : TokenId} {l : Bytes}
    (hspelling : table.spelling? id = some l) (next : Option TokenId) (level : Nat)
    (last : Option UInt8) :
    ∃ before after level', layoutToken id l next level last = (before ++ (l ++ after), level') ∧
      Gap before ∧ Gap after ∧ (needsBlank last l → before ≠ []) := by
  have hnone : Gap [] := List.forall_mem_nil _
  have hbreak : ∀ (p : Prop) [Decidable p] (n m : Nat),
      Gap (if p then lineBreak n else lineBreak m) := by
    intro p _ n m
    split
    · exact gap_lineBreak n
    · exact gap_lineBreak m
  have hmaybe : ∀ (b : Bool) (n : Nat), Gap (if b then lineBreak n else []) := by
    intro b n
    split
    · exact gap_lineBreak n
    · exact hnone
  have hblank : Gap (if needsBlank last l then [0x20] else []) := by
    split
    · exact List.forall_mem_singleton.mpr (.inr rfl)
    · exact hnone
  have hneeds : needsBlank last l → (if needsBlank last l then [0x20] else ([] : Bytes)) ≠ [] := by
    intro h
    rw [if_pos h]
    exact List.cons_ne_nil _ _
  unfold layoutToken
  by_cases hopen : id = TokenId.leftBrace
  · rw [if_pos hopen]
    exact ⟨_, _, _, by dsimp only; rw [List.append_assoc], gap_lineBreak level, hmaybe _ _,
      fun _ => List.cons_ne_nil _ _⟩
  · rw [if_neg hopen]
    by_cases hsemicolon : id = TokenId.semicolon
    · -- A semicolon is a delimiter, so nothing in front of it needs a blank.
      have hl : l = Bytes.ofString ";" := by
        rw [hsemicolon] at hspelling
        exact (Option.some.inj hspelling).symm
      rw [if_pos hsemicolon]
      refine ⟨[], _, _, rfl, hnone, hbreak _ _ _, fun h => ?_⟩
      rw [hl] at h
      cases last with
      | none => cases h
      | some a =>
        have hsign : isDelimiter 0x3B = true := by decide
        have hhead : (Bytes.ofString ";").head? = some 0x3B := by decide
        simp [needsBlank, hhead, hsign] at h
    · rw [if_neg hsemicolon]
      by_cases hclose : id = TokenId.rightBrace
      · simp only [hclose, if_true]
        exact ⟨_, _, _, by rw [List.append_assoc], hblank, hmaybe _ _, hneeds⟩
      · simp only [hclose, if_false]
        exact ⟨_, [], _, by rw [List.append_nil], hblank, hnone, hneeds⟩

/-- A slash is followed by neither a slash nor a star. -/
def StartsNoComment (a b : Bytes) : Prop := a = [slash] → b ≠ [slash] ∧ b ≠ [star]

instance : DecidableRel StartsNoComment := fun a b =>
  inferInstanceAs (Decidable (a = [slash] → b ≠ [slash] ∧ b ≠ [star]))

/-- A lexeme is ended by what is laid out behind it. -/
theorem ends_of_layout {l after text : Bytes} {more : List Bytes} (hafter : Gap after)
    (hmore : ∀ m ∈ more, IsLexeme m) (hcomment : ∀ m, more.head? = some m → StartsNoComment l m)
    (hjoins : Joins (lastByte l.getLast? after) text) (hstarts : StartsWith more text) :
    Ends l (after ++ text) := by
  cases after with
  | cons b rest =>
    have hb := hafter.isBlank List.mem_cons_self
    constructor
    · rintro - - - c ⟨⟩
      exact isDelimiter_of_isBlank hb
    · rintro - c ⟨⟩
      constructor
      · rintro rfl
        cases hb
      · rintro rfl
        cases hb
  | nil =>
    refine ⟨hjoins, fun hl c hc => ?_⟩
    rcases hstarts c hc with hblank | ⟨m, rest, rfl, hm⟩
    · constructor
      · rintro rfl
        cases hblank
      · rintro rfl
        cases hblank
    · obtain ⟨hslash, hstar⟩ := hcomment m rfl hl
      obtain ⟨tail, rfl⟩ : ∃ tail, m = c :: tail := List.head?_eq_some_iff.mp hm
      have hlexeme := hmore _ List.mem_cons_self
      constructor
      · rintro rfl
        exact hslash (by rw [hlexeme.eq_nil rfl])
      · rintro rfl
        exact hstar (by rw [hlexeme.eq_nil rfl])

/-- **What layout writes sets the lexemes apart.**  The induction is over the ids, for every place,
level and last byte. -/
theorem layoutFrom_setApart {table : SpellingTable} {ids : List TokenId} {lexemes : List Bytes}
    (hspelled : SpelledBy table ids lexemes) (hlexemes : ∀ l ∈ lexemes, IsLexeme l)
    (hcomment : lexemes.IsChain StartsNoComment) (index level : Nat) (last : Option UInt8) :
    ∃ text, layoutFrom table index level last ids = (text, none) ∧ SetApart lexemes text ∧
      Joins last text ∧ StartsWith lexemes text := by
  induction hspelled generalizing index level last with
  | nil =>
    refine ⟨[], rfl, .done (List.forall_mem_nil _), ?_, ?_⟩
    · rintro - - - c ⟨⟩
    · rintro c ⟨⟩
  | @cons id l ids more hspelling hrest ih =>
    obtain ⟨hl, hmore⟩ := List.forall_mem_cons.mp hlexemes
    obtain ⟨before, after, level', hhere, hbefore, hafter, hneeds⟩ :=
      exists_gaps_layoutToken table hspelling ids.head? level last
    obtain ⟨text, htext, happart, hjoins, hstarts⟩ :=
      ih hmore hcomment.tail (index + 1) level' (lastByte last (before ++ (l ++ after)))
    obtain ⟨c, tail, rfl⟩ := List.exists_cons_of_ne_nil hl.ne_nil
    have hlast : lastByte last (before ++ (c :: tail ++ after))
        = lastByte (c :: tail).getLast? after := by
      simp only [lastByte, List.getLast?_append]
      cases after.getLast? with
      | some b => rfl
      | none => simp [List.getLast?_cons]
    rw [hlast] at hjoins
    have hends : Ends (c :: tail) (after ++ text) :=
      ends_of_layout hafter hmore (fun m hm => hcomment.rel_head? hm) hjoins hstarts
    refine ⟨before ++ (c :: tail ++ (after ++ text)), ?_, ?_, ?_, ?_⟩
    · have hid : id ≠ TokenId.eol := by
        rintro rfl
        cases hspelling
      rw [layoutFrom, if_neg hid, hspelling]
      simp only [hhere, htext, List.append_assoc]
    · exact .lexeme hbefore hends (happart.indent hafter)
    · rintro a rfl ha d hd
      cases before with
      | cons b rest =>
        cases hd
        exact isDelimiter_of_isBlank (hbefore.isBlank List.mem_cons_self)
      | nil =>
        cases hd
        cases hc : isDelimiter c with
        | true => rfl
        | false => exact absurd rfl (hneeds (by simp [needsBlank, ha, hc]))
    · intro d hd
      cases before with
      | cons b rest =>
        cases hd
        exact .inl (hbefore.isBlank List.mem_cons_self)
      | nil => exact .inr ⟨_, _, rfl, hd⟩

/-! ## 5. Interned lexemes -/

theorem SpellingTable.spelling?_of_intern {table table' : SpellingTable} {l : Bytes} {id : TokenId}
    (h : table.intern l = .ok (id, table')) {final : SpellingTable} (hsorted : table.isSorted)
    (hfinal : final.isSorted) (hentries : table'.entries ⊆ final.entries) :
    id = TokenId.ofSpelling l ∧ final.spelling? id = some l := by
  rcases intern_eq_ok h with ⟨hfind, rfl⟩ | ⟨hfind, rfl, hinsert⟩
  · refine ⟨by rw [TokenId.ofSpelling, hfind, Option.getD_some], ?_⟩
    rw [spelling?, if_pos (Vocabulary.isReserved_of_find? hfind),
      Vocabulary.keyword?_of_find? hfind]
  · refine ⟨by rw [TokenId.ofSpelling, hfind, Option.getD_none], ?_⟩
    have hentry : (⟨TokenId.hash l, l⟩ : SpellingEntry) ∈ table'.entries := by
      rcases insert_eq_ok hinsert with ⟨e, hfound, rfl, rfl⟩ | ⟨-, rfl⟩
      · obtain ⟨hmem, hid⟩ := (find?_eq_some_iff hsorted).mp hfound
        exact hid ▸ hmem
      · exact List.mem_append_right _ List.mem_cons_self
    rw [spelling?, TokenId.isReserved_hash, lookup?,
      (find?_eq_some_iff hfinal).mpr ⟨hentries hentry, rfl⟩]
    rfl

/-- Both forms of a conditional are spelled alike. -/
theorem SpellingTable.spelling?_deferred (table : SpellingTable) (id : TokenId) :
    table.spelling? id.deferred = table.spelling? id := by
  unfold TokenId.deferred
  split
  · rename_i h
    rw [h]
    rfl
  · split
    · rename_i h
      rw [h]
      rfl
    · split
      · rename_i h
        rw [h]
        rfl
      · rfl

/-- The id of a word: that of its spelling, in the late form if the word is late. -/
def Word.id (w : Word) : TokenId :=
  if w.late then (TokenId.ofSpelling w.spelling).deferred else TokenId.ofSpelling w.spelling

theorem Script.internWord_id {table table' final : SpellingTable} {w : Word} {id : TokenId}
    (h : Script.internWord table w = .ok (id, table')) (hsorted : table.isSorted)
    (hfinal : final.isSorted) (hentries : table'.entries ⊆ final.entries) :
    id = w.id ∧ final.spelling? id = some w.spelling := by
  unfold Script.internWord at h
  split at h
  · cases h
  · rename_i hintern
    cases h
    obtain ⟨rfl, hspelling⟩ := SpellingTable.spelling?_of_intern hintern hsorted hfinal hentries
    refine ⟨rfl, ?_⟩
    split
    · rw [SpellingTable.spelling?_deferred]
      exact hspelling
    · exact hspelling

/-- **Interned words are spelled by every table that goes on from the one they fill.** -/
theorem spelledBy_words {words : List Word} {table table' final : SpellingTable}
    {ids : List TokenId}
    (h : Script.internWords table words = .ok (ids, table')) (hsorted : table.isSorted)
    (hfinal : final.isSorted) (hentries : table'.entries ⊆ final.entries) :
    ids = words.map Word.id ∧ SpelledBy final ids (words.map (·.spelling)) := by
  induction words generalizing table ids with
  | nil =>
    cases h
    exact ⟨rfl, .nil⟩
  | cons w words ih =>
    rw [Script.internWords] at h
    split at h
    · cases h
    · rename_i id table₁ hword
      split at h
      · cases h
      · rename_i rest table₂ hwords
        cases h
        have hknown : table₁.entries ⊆ final.entries := fun e he =>
          hentries ((Script.internWords_extends hwords).entries he)
        obtain ⟨hid, hspelling⟩ := Script.internWord_id hword hsorted hfinal hknown
        obtain ⟨hids, hspelled⟩ := ih hwords ((Script.internWord_extends hword).isSorted hsorted)
        exact ⟨congrArg₂ List.cons hid hids, .cons hspelling hspelled⟩

/-- **Interned lexemes are spelled by the table that they fill.** -/
theorem spelledBy_of_internWords {table table' : SpellingTable} {lexemes : List Bytes}
    {ids : List TokenId} (h : Script.internWords table (plainWords lexemes) = .ok (ids, table'))
    (hsorted : table.isSorted) :
    ids = lexemes.map TokenId.ofSpelling ∧ SpelledBy table' ids lexemes := by
  obtain ⟨hids, hspelled⟩ := spelledBy_words h hsorted
    ((Script.internWords_extends h).isSorted hsorted) (List.Subset.refl _)
  rw [plainWords, List.map_map] at hids hspelled
  refine ⟨hids, ?_⟩
  have hspellings : lexemes.map ((·.spelling) ∘ fun l => (⟨l, false⟩ : Word)) = lexemes :=
    List.map_id _
  rwa [hspellings] at hspelled

/-! ## 6. Reading back -/

/-- A carriage return stands neither in a gap nor in a lexeme. -/
theorem SetApart.filter_return {lexemes : List Bytes} {text : Bytes} (h : SetApart lexemes text)
    (hlexemes : ∀ l ∈ lexemes, IsLexeme l) : text.filter (· != 0x0D) = text := by
  have hgaps : ∀ gap, Gap gap → ∀ c ∈ gap, (c != 0x0D) = true := by
    intro gap hgap c hc
    rcases hgap c hc with rfl | rfl
    · rfl
    · rfl
  rw [List.filter_eq_self]
  induction h with
  | done hgap => exact hgaps _ hgap
  | lexeme hgap _ _ ih =>
    obtain ⟨hl, hmore⟩ := List.forall_mem_cons.mp hlexemes
    refine List.forall_mem_append.mpr ⟨hgaps _ hgap, List.forall_mem_append.mpr ⟨?_, ih hmore⟩⟩
    intro c hc
    have hblank := hl.solid c hc
    rw [bne_iff_ne]
    rintro rfl
    cases hblank

theorem unmarked_map_lit (ids : List TokenId) : unmarked (ids.map .lit) = ids := by
  simp [unmarked, List.filterMap_map]

/-- **The source text of a script is read back as that script.**  Take lexemes that are read as
themselves, no two of which start a comment, and let their spellings go into a table without a
collision.  Then the source text of their tokens can be written with that table, and reading it
gives the same ids and the same table. -/
theorem sourceText_reread {lexemes : List Bytes} {ids : List TokenId} {table : SpellingTable}
    (hlexemes : ∀ l ∈ lexemes, IsLexeme l) (hplain : ∀ l ∈ lexemes, l ∉ governingWords)
    (hcomment : lexemes.IsChain StartsNoComment)
    (hintern : Script.internWords .empty (plainWords lexemes) = .ok (ids, table))
    (withHidden : Bool) :
    ids = lexemes.map TokenId.ofSpelling ∧
      ∃ text, sourceText table withHidden (ids.map .lit) = (text, none) ∧
        Script.read text = .ok ⟨ids, table⟩ := by
  obtain ⟨hids, hspelled⟩ := spelledBy_of_internWords hintern rfl
  obtain ⟨text, htext, happart, -, -⟩ := layoutFrom_setApart hspelled hlexemes hcomment 0 0 none
  refine ⟨hids, text, ?_, ?_⟩
  · rw [sourceText, unmarked_map_lit, visible_map_lit, ite_self]
    exact htext
  · have hread := readFrom_setApart text.length happart (fun l hl => ⟨hlexemes l hl, hplain l hl⟩)
      hintern
    exact Script.read_of_readFrom ⟨happart.filter_return hlexemes, rfl⟩ hread

/-- A block with a slash between words, and a directive inside it. -/
theorem sourceText_reread_block :
    let lexemes := ["b", "\x7b", "#endif", "/", "b", ";", "\x7d", "!", "b"].map Bytes.ofString
    let ids : List TokenId := [1908338681, TokenId.leftBrace, TokenId.endif, 42, 1908338681,
      TokenId.semicolon, TokenId.rightBrace, TokenId.notSign, 1908338681]
    let table : SpellingTable := ⟨[⟨1908338681, [0x62]⟩]⟩
    let text := Bytes.ofString "b\n\x7b\n  #endif/b;\n\x7d\n!b"
    Script.internWords .empty (plainWords lexemes) = .ok (ids, table) ∧
      sourceText table false (ids.map .lit) = (text, none) ∧
      Script.read text = .ok ⟨ids, table⟩ := by
  intro lexemes ids table text
  have hintern : Script.internWords .empty (plainWords lexemes) = .ok (ids, table) := by cbv
  have hlayout : sourceText table false (ids.map .lit) = (text, none) := by cbv
  obtain ⟨-, text', htext, hread⟩ :=
    sourceText_reread (by decide +kernel) (by decide) (by decide) hintern false
  rw [hlayout] at htext
  cases htext
  exact ⟨hintern, hlayout, hread⟩

end EffectScript
