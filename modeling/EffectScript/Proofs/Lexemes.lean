import EffectScript.Proofs.Rereading

/-!
# How a text is cut into lexemes

`Lexeme.all` cuts a text at delimiters and knows nothing of comments.  Two texts that are put
together are cut as each of them is, unless a word runs across the seam (`Lexeme.all_append`); so
blanks in front, behind and in between do not count.  Where no lexeme starts a comment, the words of
a text are its lexemes (`Word.all_eq_plainWords`).
-/

namespace EffectScript

namespace Lexeme

/-! ## 1. The first lexeme -/

theorem all_of_none {text : Bytes} (h : next? text = none) : all text = [] := by
  rw [all]
  split
  · rfl
  · simp_all

theorem all_of_some {text lexeme rest : Bytes} (h : next? text = some (lexeme, rest)) :
    all text = lexeme :: all rest := by
  rw [all]
  split
  · simp_all
  · rename_i hnext
    rw [h] at hnext
    cases hnext
    rfl

/-- Texts that start with the same lexeme, and go on alike, have the same lexemes. -/
theorem all_congr {text text' : Bytes} (h : next? text = next? text') : all text = all text' := by
  cases hnext : next? text' with
  | none => rw [all_of_none (h.trans hnext), all_of_none hnext]
  | some pair => rw [all_of_some (h.trans hnext), all_of_some hnext]

/-- Blanks in front of a text do not count. -/
theorem next?_blank_append {gap : Bytes} (hgap : ∀ c ∈ gap, isBlank c) (text : Bytes) :
    next? (gap ++ text) = next? text := by
  unfold next?
  rw [List.dropWhile_append_of_pos hgap]

theorem next?_eq_none_iff {text : Bytes} : next? text = none ↔ ∀ c ∈ text, isBlank c := by
  rw [← List.dropWhile_eq_nil_iff]
  unfold next?
  constructor
  · intro h
    split at h
    · assumption
    · split at h <;> cases h
  · intro h
    rw [h]

/-- Anything may follow a sign. -/
theorem joins_sign {c : UInt8} (h : isDelimiter c) (text : Bytes) : Joins [c].getLast? text := by
  intro a ha hword
  rw [List.getLast?_singleton, Option.some.injEq] at ha
  rw [← ha, h] at hword
  cases hword

/-- **What the first lexeme is**: it stands behind the blanks, and what follows does not go on with
a word. -/
theorem next?_eq_some {text lexeme rest : Bytes} (h : next? text = some (lexeme, rest)) :
    IsLexeme lexeme ∧ text = text.takeWhile isBlank ++ (lexeme ++ rest) ∧
      Joins lexeme.getLast? rest := by
  have hblank : text = text.takeWhile isBlank ++ text.dropWhile isBlank :=
    List.takeWhile_append_dropWhile.symm
  have hhead := List.head?_dropWhile_not isBlank text
  unfold next? at h
  split at h
  · cases h
  · rename_i c tail htail
    rw [htail] at hblank hhead
    have hc : isBlank c = false := by simpa using hhead
    split at h
    · rename_i hsign
      cases h
      exact ⟨.sign hsign hc, hblank, joins_sign hsign rest⟩
    · rename_i hsign
      cases h
      have hrun : ∀ d ∈ c :: tail.takeWhile (!isDelimiter ·), isDelimiter d = false := by
        refine List.forall_mem_cons.mpr ⟨Bool.eq_false_iff.mpr hsign, fun d hd => ?_⟩
        simpa using List.mem_takeWhile_imp hd
      refine ⟨.run hrun, ?_, ?_⟩
      · rw [List.cons_append, List.takeWhile_append_dropWhile]
        exact hblank
      · rintro a - - d hd
        have hstop := List.head?_dropWhile_not (!isDelimiter ·) tail
        rw [hd] at hstop
        simpa using hstop

/-- A lexeme behind blanks is the first, when what follows does not go on with a word. -/
theorem next?_of_joins {gap lexeme rest : Bytes} (hgap : ∀ c ∈ gap, isBlank c)
    (h : IsLexeme lexeme) (hjoins : Joins lexeme.getLast? rest) :
    next? (gap ++ (lexeme ++ rest)) = some (lexeme, rest) := by
  rw [next?_blank_append hgap]
  exact next?_lexeme h hjoins

/-! ## 2. All lexemes -/

theorem isLexeme_of_mem_all (text : Bytes) : ∀ l ∈ all text, IsLexeme l := by
  induction text using all.induct with
  | case1 text h =>
    rw [all_of_none h]
    simp
  | case2 text lexeme rest h ih =>
    rw [all_of_some h]
    exact List.forall_mem_cons.mpr ⟨(next?_eq_some h).1, ih⟩

theorem subset_of_mem_all {text l : Bytes} (hl : l ∈ all text) : l ⊆ text := by
  induction text using all.induct with
  | case1 text h =>
    rw [all_of_none h] at hl
    cases hl
  | case2 text lexeme rest h ih =>
    obtain ⟨-, htext, -⟩ := next?_eq_some h
    intro c hc
    rw [all_of_some h] at hl
    rw [htext]
    refine List.mem_append_right _ ?_
    rcases List.mem_cons.mp hl with rfl | hl
    · exact List.mem_append_left _ hc
    · exact List.mem_append_right _ (ih hl hc)

theorem all_blank {gap : Bytes} (hgap : ∀ c ∈ gap, isBlank c) : all gap = [] :=
  all_of_none (next?_eq_none_iff.mpr hgap)

theorem all_lexeme {l : Bytes} (h : IsLexeme l) : all l = [l] := by
  have hnext : next? (l ++ []) = some (l, []) := next?_lexeme h (by rintro - - - c ⟨⟩)
  rw [List.append_nil] at hnext
  rw [all_of_some hnext, all_blank (List.forall_mem_nil _)]

theorem all_blank_append {gap : Bytes} (hgap : ∀ c ∈ gap, isBlank c) (text : Bytes) :
    all (gap ++ text) = all text :=
  all_congr (next?_blank_append hgap text)

/-- **Texts that are put together are cut as each of them is**, when no word runs across the
seam. -/
theorem all_append {left right : Bytes} (hjoins : Joins left.getLast? right) :
    all (left ++ right) = all left ++ all right := by
  induction left using all.induct with
  | case1 left h =>
    have hblank := next?_eq_none_iff.mp h
    rw [all_of_none h, all_blank_append hblank, List.nil_append]
  | case2 left lexeme rest h ih =>
    obtain ⟨hlexeme, hleft, hrest⟩ := next?_eq_some h
    have hblank : ∀ c ∈ left.takeWhile isBlank, isBlank c :=
      fun c hc => List.mem_takeWhile_imp hc
    have hnext : next? (left ++ right) = some (lexeme, rest ++ right) := by
      rw [hleft, List.append_assoc, List.append_assoc]
      refine next?_of_joins hblank hlexeme ?_
      -- What follows the lexeme is the rest of the left text, and if that is empty, the right one.
      rcases rest with _ | ⟨d, rest⟩
      · rw [hleft, List.append_nil, List.getLast?_append_of_ne_nil _ hlexeme.ne_nil] at hjoins
        exact hjoins
      · exact hrest
    have hseam : Joins rest.getLast? right := by
      rcases rest with _ | ⟨d, rest⟩
      · rintro a ⟨⟩
      · rw [hleft, ← List.append_assoc, List.getLast?_append_of_ne_nil _ (List.cons_ne_nil _ _)]
          at hjoins
        exact hjoins
    rw [all_of_some h, all_of_some hnext, ih hseam, List.cons_append]

theorem joins_of_blank {gap : Bytes} (hgap : ∀ c ∈ gap, isBlank c) (last : Option UInt8) :
    Joins last gap := by
  rintro a - - c hc
  exact isDelimiter_of_isBlank (hgap c (List.mem_of_mem_head? hc))

/-- Blanks behind a text do not count. -/
theorem all_append_blank {gap : Bytes} (hgap : ∀ c ∈ gap, isBlank c) (text : Bytes) :
    all (text ++ gap) = all text := by
  rw [all_append (joins_of_blank hgap _), all_blank hgap, List.append_nil]

theorem all_trimRight {p : UInt8 → Bool} (hp : ∀ c, p c → isBlank c) (text : Bytes) :
    all (Bytes.trimRight p text) = all text := by
  have htext : text = Bytes.trimRight p text ++ (text.reverse.takeWhile p).reverse := by
    rw [Bytes.trimRight, ← List.reverse_append, List.takeWhile_append_dropWhile,
      List.reverse_reverse]
  have htail : ∀ c ∈ (text.reverse.takeWhile p).reverse, isBlank c := by
    intro c hc
    exact hp c (List.mem_takeWhile_imp (List.mem_reverse.mp hc))
  conv_rhs => rw [htext]
  exact (all_append_blank htail _).symm

theorem all_dropWhile {p : UInt8 → Bool} (hp : ∀ c, p c → isBlank c) (text : Bytes) :
    all (text.dropWhile p) = all text := by
  have hfront : ∀ c ∈ text.takeWhile p, isBlank c :=
    fun c hc => hp c (List.mem_takeWhile_imp hc)
  conv_rhs => rw [← List.takeWhile_append_dropWhile (p := p) (l := text)]
  exact (all_blank_append hfront _).symm

/-- The text is over, or a new line starts. -/
def EndsLine (text : Bytes) : Prop := ∀ c, text.head? = some c → c = newline

/-! ## 3. Lexemes behind blanks and comments -/

/-- A sign that stands at the start of a text is its first lexeme. -/
theorem head?_all_of_sign {c : UInt8} {text : Bytes} (hc : text.head? = some c)
    (hsign : isDelimiter c) (hblank : isBlank c = false) : (all text).head? = some [c] := by
  obtain ⟨tail, rfl⟩ := List.head?_eq_some_iff.mp hc
  have hnext := next?_lexeme (.sign hsign hblank) (joins_sign hsign tail)
  rw [List.singleton_append] at hnext
  rw [all_of_some hnext]
  rfl

end Lexeme

open Lexeme

/-- **The words of a text are its lexemes**, where none of them starts a comment or governs the text
behind it. -/
theorem Word.all_eq_plainWords {text : Bytes} (hcomment : (Lexeme.all text).IsChain StartsNoComment)
    (hplain : ∀ l ∈ Lexeme.all text, l ∉ governingWords) :
    Word.all text = plainWords (Lexeme.all text) := by
  induction text using Lexeme.all.induct with
  | case1 text h =>
    have hblank := List.dropWhile_eq_nil_iff.mpr (next?_eq_none_iff.mp h)
    rw [Lexeme.all_of_none h, Word.all_of_none (by rw [skipBlank_of_nil hblank]; rfl)]
    rfl
  | case2 text lexeme rest h ih =>
    rw [Lexeme.all_of_some h] at hcomment hplain ⊢
    obtain ⟨hlexeme, htext, hjoins⟩ := next?_eq_some h
    obtain ⟨hfirst, hrest⟩ := List.forall_mem_cons.mp hplain
    have hends : Ends lexeme rest := by
      -- A slash or a star right behind a slash would be the next lexeme.
      refine ⟨hjoins, fun hslash c hc => ⟨?_, ?_⟩⟩
      · rintro rfl
        exact (hcomment.rel_head? (head?_all_of_sign hc rfl rfl) hslash).1 rfl
      · rintro rfl
        exact (hcomment.rel_head? (head?_all_of_sign hc rfl rfl) hslash).2 rfl
    have hskip : skipBlank text = lexeme ++ rest := by
      rw [htext]
      exact skipBlank_lexeme (fun c hc => List.mem_takeWhile_imp hc) hlexeme hends
    have hword : Word.ofLexeme lexeme rest = ⟨lexeme, false⟩ := by
      rw [Word.ofLexeme, isEarlyTest_ofSpelling hfirst, Bool.false_and]
    rw [Word.all_of_some (by rw [hskip]; exact next?_append hlexeme hends), hword,
      ih hcomment.tail hrest]
    rfl

end EffectScript
