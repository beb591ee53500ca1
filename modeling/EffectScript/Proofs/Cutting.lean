import EffectScript.Lexis.Scan
import EffectScript.Proofs.Lexemes

/-!
# A text is cut without loss

A scan is asked for lexemes until there are no more.  Whatever the text is, this comes to an end,
and then the scan is at the end of the text.  Only blanks get lost: the lexemes put together are the
other bytes of the text.  And no word is cut in two: each lexeme is a single delimiter, or a word
that is as long as it can be at its place, both to its right and to its left (`IsCut`).

To the right, a single call sees to this.  To the left it is the work of all the calls before: none
of them ends between two bytes of one word.  That is what the induction over the calls carries, as
`Joins`.

Main statement: `scan_cuts_text`.
-/

namespace EffectScript

namespace Lexeme

/-! ## 1. Lexemes at their places -/

/-- Between `before` and `after`, the lexeme is one delimiter that is no blank, or a word: bytes
that are no delimiters, and on either side of them there is a delimiter or the text is over. -/
inductive IsCut : Bytes → Bytes → Bytes → Prop
  | sign {before after : Bytes} {c : UInt8} (hsign : isDelimiter c) (hblank : 0x20 < c) :
      IsCut before [c] after
  | word {before lexeme after : Bytes} (hne : lexeme ≠ [])
      (hword : ∀ c ∈ lexeme, isDelimiter c = false)
      (hbefore : ∀ c, before.getLast? = some c → isDelimiter c)
      (hafter : ∀ c, after.head? = some c → isDelimiter c) : IsCut before lexeme after

theorem isBlank_eq_false_iff_lt {c : UInt8} : isBlank c = false ↔ 0x20 < c := by
  rw [isBlank, decide_eq_false_iff_not, UInt8.not_le]

theorem filter_blank {gap : Bytes} (hgap : ∀ c ∈ gap, isBlank c) : gap.filter (0x20 < ·) = [] := by
  rw [List.filter_eq_nil_iff]
  intro c hc hlt
  have hblank := isBlank_eq_false_iff_lt.mpr (of_decide_eq_true hlt)
  rw [hgap c hc] at hblank
  cases hblank

theorem filter_solid {l : Bytes} (h : Solid l) : l.filter (0x20 < ·) = l := by
  rw [List.filter_eq_self]
  exact fun c hc => decide_eq_true (isBlank_eq_false_iff_lt.mp (h c hc))

/-- A lexeme that no word runs into, and that runs into no word, is as long as it can be. -/
theorem IsLexeme.isCut {before lexeme after : Bytes} (h : IsLexeme lexeme)
    (hbefore : Joins before.getLast? (lexeme ++ after)) (hafter : Joins lexeme.getLast? after) :
    IsCut before lexeme after := by
  cases h with
  | sign hsign hblank => exact .sign hsign (isBlank_eq_false_iff_lt.mp hblank)
  | @run c rest hrun =>
    have hne := List.cons_ne_nil c rest
    refine .word hne hrun (fun b hb => ?_) (hafter _ (List.getLast?_eq_some_getLast hne) ?_)
    · -- A byte of a word in front of it would be followed by a delimiter.
      by_contra hword
      have hc := hbefore b hb (Bool.eq_false_iff.mpr hword) c rfl
      rw [hrun c List.mem_cons_self] at hc
      cases hc
    · exact hrun _ (List.getLast_mem hne)

/-- Blanks stop a word, whether they are left or have been read. -/
theorem joins_gap {read gap left : Bytes} (h : Joins read.getLast? (gap ++ left))
    (hgap : ∀ c ∈ gap, isBlank c) : Joins (read ++ gap).getLast? left := by
  rcases List.eq_nil_or_concat gap with rfl | ⟨gap, b, rfl⟩
  · rw [List.append_nil]
    exact h
  · have hb : isDelimiter b := isDelimiter_of_isBlank (hgap b (by simp))
    rw [List.concat_eq_append, ← List.append_assoc, List.getLast?_concat]
    rintro a ⟨⟩ hword
    rw [hb] at hword
    cases hword

/-! ## 2. One call -/

namespace Scan

/-- **A call that finds a lexeme** takes it off behind the blanks, and leaves no part of a word. -/
theorem next_eq_some {s t : Scan} {lexeme : Bytes} (h : s.next = (some lexeme, t)) :
    IsLexeme lexeme ∧ Joins lexeme.getLast? t.left ∧
      ∃ gap, (∀ c ∈ gap, isBlank c) ∧ s.left = gap ++ (lexeme ++ t.left) ∧
        t.read = s.read ++ gap ++ lexeme := by
  obtain ⟨read, left⟩ := s
  unfold next at h
  split at h
  · cases h
  · rename_i l rest hnext
    cases h
    obtain ⟨hlexeme, hleft, hjoins⟩ := next?_eq_some hnext
    obtain ⟨gap, hgap, rfl⟩ : ∃ gap, (∀ c ∈ gap, isBlank c) ∧ left = gap ++ (lexeme ++ rest) :=
      ⟨_, fun c hc => List.mem_takeWhile_imp hc, hleft⟩
    refine ⟨hlexeme, hjoins, gap, hgap, rfl, ?_⟩
    rw [← List.append_assoc, goOn_append, List.append_assoc]

/-- **A call that finds nothing** reads what is left, and that is blank. -/
theorem next_eq_none {s t : Scan} (h : s.next = (none, t)) :
    (∀ c ∈ s.left, isBlank c) ∧ t = ⟨s.text, []⟩ := by
  obtain ⟨read, left⟩ := s
  unfold next at h
  split at h
  · rename_i hnext
    cases h
    have hblank : ∀ c ∈ left, isBlank c := next?_eq_none_iff.mp hnext
    refine ⟨hblank, ?_⟩
    rw [List.dropWhile_eq_nil_iff.mpr hblank]
    have hgo := goOn_append read left []
    rw [List.append_nil] at hgo
    exact hgo
  · cases h

theorem text_next {s t : Scan} {lexeme? : Option Bytes} (h : s.next = (lexeme?, t)) :
    t.text = s.text := by
  cases lexeme? with
  | none =>
    obtain ⟨-, rfl⟩ := next_eq_none h
    exact List.append_nil _
  | some lexeme =>
    obtain ⟨-, -, gap, -, hleft, hread⟩ := next_eq_some h
    rw [text, text, hread, hleft, List.append_assoc, List.append_assoc]

/-! ## 3. All calls -/

/-- Calls until one finds nothing: the lexemes that were found, each with the offset behind it, and
the scan in the end. -/
inductive Exhausts : Scan → List (Bytes × Nat) → Scan → Prop
  | done {s t : Scan} (h : s.next = (none, t)) : Exhausts s [] t
  | found {s t last : Scan} {lexeme : Bytes} {more : List (Bytes × Nat)}
      (h : s.next = (some lexeme, t)) (hmore : Exhausts t more last) :
      Exhausts s ((lexeme, t.offset) :: more) last

/-- **The calls come to an end.** -/
theorem exists_exhausts (s : Scan) : ∃ found last, s.Exhausts found last := by
  induction hn : s.left.length using Nat.strong_induction_on generalizing s with
  | _ n ih =>
    rcases hnext : s.next with ⟨_ | lexeme, t⟩
    · exact ⟨[], t, .done hnext⟩
    · obtain ⟨hlexeme, -, gap, -, hleft, -⟩ := next_eq_some hnext
      have hpos := List.length_pos_iff.mpr hlexeme.ne_nil
      have hlt : t.left.length < n := by
        rw [← hn, hleft, List.length_append, List.length_append]
        omega
      obtain ⟨found, last, hmore⟩ := ih _ hlt t rfl
      exact ⟨_, last, .found hnext hmore⟩

variable {s last : Scan} {found : List (Bytes × Nat)}

/-- In the end, all of the text has been read. -/
theorem Exhausts.last_eq (h : s.Exhausts found last) : last = ⟨s.text, []⟩ := by
  induction h with
  | done h => exact (next_eq_none h).2
  | found h _ ih => rw [ih, text_next h]

/-- **Only blanks get lost.** -/
theorem Exhausts.flatten_eq (h : s.Exhausts found last) :
    (found.map (·.1)).flatten = s.left.filter (0x20 < ·) := by
  induction h with
  | done h => exact (filter_blank (next_eq_none h).1).symm
  | found h _ ih =>
    obtain ⟨hlexeme, -, gap, hgap, hleft, -⟩ := next_eq_some h
    rw [List.map_cons, List.flatten_cons, ih, hleft, List.filter_append, List.filter_append,
      filter_blank hgap, List.nil_append, filter_solid hlexeme.solid]

/-- Every call that finds a lexeme goes on. -/
theorem Exhausts.isChain_offset (h : s.Exhausts found last) :
    (s.offset :: found.map (·.2)).IsChain (· < ·) := by
  induction h with
  | done h => exact .singleton _
  | @found s t _ lexeme _ h _ ih =>
    obtain ⟨hlexeme, -, gap, -, -, hread⟩ := next_eq_some h
    have hpos := List.length_pos_iff.mpr hlexeme.ne_nil
    have hlt : s.offset < t.offset := by
      rw [offset, offset, hread, List.length_append, List.length_append]
      omega
    exact .cons_cons hlt ih

/-- **No word is cut in two**, when the calls do not start inside one. -/
theorem Exhausts.isCut (h : s.Exhausts found last) (hjoins : Joins s.read.getLast? s.left)
    {lexeme : Bytes} {stop : Nat} (hmem : (lexeme, stop) ∈ found) :
    ∃ before after, s.text = before ++ (lexeme ++ after) ∧ stop = (before ++ lexeme).length ∧
      IsCut before lexeme after := by
  induction h with
  | done h => cases hmem
  | @found s t _ first more h _ ih =>
    obtain ⟨hlexeme, hafter, gap, hgap, hleft, hread⟩ := next_eq_some h
    rcases List.mem_cons.mp hmem with heq | hmem
    · cases heq
      rw [hleft] at hjoins
      refine ⟨s.read ++ gap, t.left, ?_, ?_, hlexeme.isCut (joins_gap hjoins hgap) hafter⟩
      · rw [text, hleft, List.append_assoc]
      · rw [offset, hread]
    · rw [← text_next h]
      refine ih ?_ hmem
      rw [hread, List.getLast?_append_of_ne_nil _ hlexeme.ne_nil]
      exact hafter

end Scan

end Lexeme

open Lexeme

/-- **A text is cut without loss, into lexemes that are as long as they can be.**  A scan from the
start of any text, asked until it finds no more, comes to an end, and has read all of the text then.
The lexemes put together are the text without its blanks.  Each of them is found at the place where
the scan stands after it, and there it is one delimiter, or a word that goes no further to either
side.  The offset grows with every lexeme. -/
theorem scan_cuts_text (text : Bytes) :
    ∃ (found : List (Bytes × Nat)) (last : Scan), (Scan.start text).Exhausts found last ∧
      (found.map (·.1)).flatten = text.filter (0x20 < ·) ∧
      (∀ lexeme stop, (lexeme, stop) ∈ found → ∃ before after,
        text = before ++ (lexeme ++ after) ∧ stop = (before ++ lexeme).length ∧
          IsCut before lexeme after) ∧
      (0 :: found.map (·.2)).IsChain (· < ·) ∧
      last.offset = text.length ∧ last.atEnd := by
  obtain ⟨found, last, h⟩ := (Scan.start text).exists_exhausts
  have hjoins : Joins (Scan.start text).read.getLast? text := by rintro a ⟨⟩
  refine ⟨found, last, h, h.flatten_eq, fun lexeme stop hmem => h.isCut hjoins hmem,
    h.isChain_offset, ?_⟩
  rw [h.last_eq]
  exact ⟨rfl, rfl⟩

end EffectScript
