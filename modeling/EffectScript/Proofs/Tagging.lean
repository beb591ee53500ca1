import EffectScript.Proofs.Inventory
import EffectScript.Proofs.Lexemes
import EffectScript.Proofs.OwnLine

/-!
# What makes a conditional late

A conditional is for the second pass when the rest of its line mentions a flag of that pass.
Reading looks for the flag in the bytes of the line, up to a comment that runs to its end, and not
in the tokens that it makes of them (`Lexeme.restOfLine`).

On a line of words without a comment inside it comes to the same: what is left of the line is cut
into the spellings of the tokens (`Script.ReadsLine.exists_words`), so a conditional is late exactly
when one of these tokens is a flag.  A comment that runs to the end of the line has no say in it.  A
comment inside the line has: its flags count, though they are no tokens.

Main statement: `conditional_tag`.  `conditional_tag_comment` is a conditional that is late by a
comment.
-/

namespace EffectScript

open Lexeme

/-! ## 1. The rest of a line -/

namespace Lexeme

theorem restOfLine_cons (c : UInt8) (text : Bytes) :
    restOfLine (c :: text) =
      if c = newline ∨ c = slash ∧ text.head? = some slash then [] else c :: restOfLine text := by
  by_cases hline : c = newline
  · subst hline
    rfl
  · have hmark : List.isPrefixOf [slash, slash] (c :: text.takeWhile (· != newline)) = true ↔
        c = slash ∧ text.head? = some slash := by
      rw [List.isPrefixOf_iff_prefix, List.cons_prefix_cons]
      rcases text with _ | ⟨d, text⟩
      · simp
      · by_cases hd : d = newline
        · subst hd
          simp [newline, slash]
        · rw [List.takeWhile_cons_of_pos (by simpa using hd)]
          simp [List.cons_prefix_cons, eq_comm]
    unfold restOfLine
    rw [List.takeWhile_cons_of_pos (by simpa using hline), Bytes.before]
    simp only [hmark, hline, false_or]

theorem restOfLine_isPrefix (text : Bytes) : restOfLine text <+: text := by
  induction text with
  | nil => exact List.prefix_rfl
  | cons c text ih =>
    rw [restOfLine_cons]
    split
    · exact List.nil_prefix
    · exact List.cons_prefix_cons.mpr ⟨rfl, ih⟩

/-- Where nothing is left of a line, the text is over, a new line starts, or a comment. -/
theorem cases_of_restOfLine_nil {text : Bytes} (h : restOfLine text = []) :
    text = [] ∨ (∃ below, text = newline :: below) ∨ ∃ below, text = slash :: slash :: below := by
  rcases text with _ | ⟨c, text⟩
  · exact .inl rfl
  · rw [restOfLine_cons] at h
    split at h
    · rename_i hstop
      rcases hstop with rfl | ⟨rfl, hhead⟩
      · exact .inr (.inl ⟨text, rfl⟩)
      · obtain ⟨below, rfl⟩ := List.head?_eq_some_iff.mp hhead
        exact .inr (.inr ⟨below, rfl⟩)
    · cases h

/-- What is left of the line further on. -/
theorem restOfLine_of_append (front : Bytes) {text rest : Bytes}
    (h : restOfLine (front ++ text) = front ++ rest) : restOfLine text = rest := by
  induction front with
  | nil => exact h
  | cons c front ih =>
    rw [List.cons_append, restOfLine_cons] at h
    split at h
    · cases h
    · exact ih (List.cons.inj h).2

theorem newline_not_mem_restOfLine (text : Bytes) : newline ∉ restOfLine text := by
  induction text with
  | nil => exact List.not_mem_nil
  | cons c text ih =>
    rw [restOfLine_cons]
    split
    · exact List.not_mem_nil
    · rename_i hgo
      exact List.not_mem_cons_of_ne_of_not_mem (fun h => hgo (.inl h.symm)) ih

theorem restOfLine_of_endsLine {text : Bytes} (h : EndsLine text) : restOfLine text = [] := by
  rcases text with _ | ⟨c, text⟩
  · rfl
  · obtain rfl := h c rfl
    rfl

/-- A line without a comment to its end is all of it left. -/
theorem restOfLine_line {line tail : Bytes} (hline : newline ∉ line)
    (hcomment : ¬ [slash, slash] <:+: line) (htail : EndsLine tail) :
    restOfLine (line ++ tail) = line := by
  induction line with
  | nil => exact restOfLine_of_endsLine htail
  | cons c line ih =>
    obtain ⟨hc, hrest⟩ := not_or.mp (mt List.mem_cons.mpr hline)
    rw [List.cons_append, restOfLine_cons, if_neg,
      ih hrest fun h => hcomment (h.trans (List.suffix_cons c line).isInfix)]
    rintro (h | ⟨rfl, hhead⟩)
    · exact hc h.symm
    · rcases line with _ | ⟨d, line⟩
      · cases htail _ hhead
      · cases hhead
        exact hcomment ⟨[], line, rfl⟩

/-- A comment to the end of the line takes nothing from what is left of it but a slash right before
it. -/
theorem restOfLine_comment (left comment : Bytes) {tail : Bytes} (htail : EndsLine tail) :
    ∃ taken, (taken = [] ∨ taken = [slash]) ∧
      restOfLine (left ++ tail) = restOfLine (left ++ slash :: slash :: comment) ++ taken := by
  have hslashes : restOfLine (slash :: slash :: comment) = [] := rfl
  induction left with
  | nil => exact ⟨[], .inl rfl, restOfLine_of_endsLine htail⟩
  | cons c left ih =>
    rw [List.cons_append, List.cons_append, restOfLine_cons, restOfLine_cons]
    -- Only the byte right before the comment has another neighbour without it.
    rcases left with _ | ⟨d, left⟩
    · have hhead : tail.head? ≠ some slash := fun h => by cases htail _ h
      rw [List.nil_append, List.nil_append, hslashes, restOfLine_of_endsLine htail]
      by_cases hc : c = slash
      · subst hc
        exact ⟨[slash], .inr rfl, by rw [if_neg (by rintro (h | ⟨-, h⟩) <;> contradiction)]; rfl⟩
      · exact ⟨[], .inl rfl, by simp [hc]⟩
    · obtain ⟨taken, htaken, heq⟩ := ih
      rw [heq, List.cons_append, List.cons_append, List.head?_cons, List.head?_cons]
      split
      · exact ⟨[], .inl rfl, rfl⟩
      · exact ⟨taken, htaken, rfl⟩

end Lexeme

/-! ## 2. Flags in a text -/

theorem mentionsLateFlag_iff {text : Bytes} :
    mentionsLateFlag text ↔ ∃ l ∈ Lexeme.all text, lateFlagStart <+: l := by
  rw [mentionsLateFlag, List.any_eq_true]
  simp only [List.isPrefixOf_iff_prefix]

theorem mentionsLateFlag_append {left right : Bytes} (h : Joins left.getLast? right) :
    mentionsLateFlag (left ++ right) = (mentionsLateFlag left || mentionsLateFlag right) := by
  rw [mentionsLateFlag, all_append h, List.any_append]
  rfl

@[simp] theorem mentionsLateFlag_nil : mentionsLateFlag [] = false := by
  rw [mentionsLateFlag, all_blank (List.forall_mem_nil _)]
  rfl

/-- A delimiter is too short for a flag. -/
theorem mentionsLateFlag_cons {c : UInt8} (h : isDelimiter c) (text : Bytes) :
    mentionsLateFlag (c :: text) = mentionsLateFlag text := by
  have hone : mentionsLateFlag [c] = false := by
    cases hblank : isBlank c with
    | true =>
      rw [mentionsLateFlag, all_blank (List.forall_mem_singleton.mpr hblank)]
      rfl
    | false =>
      have hstart : lateFlagStart = [0x25, 0x5F] := by decide
      rw [mentionsLateFlag, all_lexeme (.sign h hblank), hstart]
      simp [List.isPrefixOf]
  have happend : mentionsLateFlag ([c] ++ text) = (mentionsLateFlag [c] || mentionsLateFlag text) :=
    mentionsLateFlag_append (joins_sign h text)
  rw [hone, Bool.false_or] at happend
  exact happend

/-- A delimiter keeps the flags on its two sides apart. -/
theorem mentionsLateFlag_append_cons {c : UInt8} (h : isDelimiter c) (left right : Bytes) :
    mentionsLateFlag (left ++ c :: right) = (mentionsLateFlag left || mentionsLateFlag right) := by
  have hjoins : Joins left.getLast? (c :: right) := by
    rintro a - - d ⟨⟩
    exact h
  rw [mentionsLateFlag_append hjoins, mentionsLateFlag_cons h]

/-- **A comment to the end of a line has no say in its flags.** -/
theorem mentionsLateFlag_lineComment (left comment : Bytes) {tail : Bytes} (htail : EndsLine tail) :
    mentionsLateFlag (restOfLine (left ++ slash :: slash :: comment))
      = mentionsLateFlag (restOfLine (left ++ tail)) := by
  obtain ⟨taken, htaken, heq⟩ := restOfLine_comment left comment htail
  rw [heq]
  rcases htaken with rfl | rfl
  · rw [List.append_nil]
  · rw [mentionsLateFlag_append_cons rfl, mentionsLateFlag_nil, Bool.or_false]

/-- **A comment inside a line adds its flags to those of the line.** -/
theorem mentionsLateFlag_comment {left comment right tail : Bytes}
    (hline : newline ∉ left ++ slash :: star :: (comment ++ star :: slash :: right))
    (hseam : Joins left.getLast? right) (htail : EndsLine tail)
    (hopen : ¬ [slash, slash] <:+: left ++ right)
    (hopen' : ¬ [slash, slash] <:+: left ++ slash :: star :: (comment ++ star :: slash :: right)) :
    mentionsLateFlag
      (restOfLine (left ++ slash :: star :: (comment ++ star :: slash :: right) ++ tail))
      = (mentionsLateFlag (restOfLine (left ++ right ++ tail)) || mentionsLateFlag comment) := by
  have hplain : newline ∉ left ++ right := by
    simp only [List.mem_append, List.mem_cons, not_or] at hline ⊢
    exact ⟨hline.1, hline.2.2.2.2.2.2⟩
  rw [restOfLine_line hline hopen' htail, restOfLine_line hplain hopen htail]
  calc
    mentionsLateFlag (left ++ slash :: star :: (comment ++ star :: slash :: right))
        = (mentionsLateFlag left || (mentionsLateFlag comment || mentionsLateFlag right)) := by
          rw [mentionsLateFlag_append_cons rfl, mentionsLateFlag_cons rfl,
            mentionsLateFlag_append_cons rfl, mentionsLateFlag_cons rfl]
    _ = (mentionsLateFlag left || mentionsLateFlag right || mentionsLateFlag comment) := by
          rw [Bool.or_comm (mentionsLateFlag comment), Bool.or_assoc]
    _ = (mentionsLateFlag (left ++ right) || mentionsLateFlag comment) := by
          rw [mentionsLateFlag_append hseam]

/-! ## 3. Lines of words -/

theorem skipBlank_blank_append {gap : Bytes} (hgap : ∀ c ∈ gap, isBlank c) (text : Bytes) :
    skipBlank (gap ++ text) = skipBlank text := by
  have hdrop : (gap ++ text).dropWhile isBlank = text.dropWhile isBlank :=
    List.dropWhile_append_of_pos hgap
  cases htext : text.dropWhile isBlank with
  | nil => rw [skipBlank_of_nil htext, skipBlank_of_nil (hdrop.trans htext)]
  | cons c rest =>
    cases hcomment : dropComment? (c :: rest) with
    | none => rw [skipBlank_of_none htext hcomment, skipBlank_of_none (hdrop.trans htext) hcomment]
    | some left =>
      rw [skipBlank_of_some htext hcomment, skipBlank_of_some (hdrop.trans htext) hcomment]

/-- A line that ends in what is skipped ends in front of the next item. -/
theorem staysOnLine_eq_false {text front below : Bytes} (htext : text = front ++ newline :: below)
    (hskip : (skipBlank text).length ≤ below.length) : staysOnLine text = false := by
  have hlength : text.length = front.length + (below.length + 1) := by simp [htext]
  have hfront : front ++ [newline] <+: text.take (text.length - (skipBlank text).length) := by
    rw [List.prefix_take_iff]
    constructor
    · exact ⟨below, by rw [htext, List.append_assoc]; rfl⟩
    · rw [List.length_append, List.length_singleton]
      omega
  have hmem : newline ∈ text.take (text.length - (skipBlank text).length) :=
    hfront.subset (List.mem_append_right _ List.mem_cons_self)
  rw [staysOnLine, List.contains_iff_mem.mpr hmem]
  rfl

/-- **Where no lexeme is left of a line, no item is.** -/
theorem ends_of_restOfLine (total : Nat) {text : Bytes}
    (h : Lexeme.next? (restOfLine text) = none) :
    staysOnLine text = false ∨ Item.next? total text = .ok none := by
  have hblank := next?_eq_none_iff.mp h
  obtain ⟨tail, htext⟩ := restOfLine_isPrefix text
  have htail : restOfLine tail = [] := by
    refine restOfLine_of_append (restOfLine text) ?_
    rw [htext, List.append_nil]
  have hskip : skipBlank text = skipBlank tail := by
    conv_lhs => rw [← htext]
    exact skipBlank_blank_append hblank tail
  have hnone : skipBlank tail = [] → Item.next? total text = .ok none := by
    intro hnil
    rw [Item.next?, hskip, hnil]
    rfl
  have hnewline : ∀ below, skipBlank ([newline] ++ below) = skipBlank below :=
    skipBlank_blank_append (List.forall_mem_singleton.mpr rfl)
  rcases cases_of_restOfLine_nil htail with rfl | ⟨below, rfl⟩ | ⟨comment, rfl⟩
  · exact .inr (hnone (skipBlank_of_nil rfl))
  · refine .inl (staysOnLine_eq_false htext.symm ?_)
    rw [hskip, ← List.singleton_append, hnewline]
    exact length_skipBlank_le below
  · have hcomment : skipBlank (slash :: slash :: comment)
        = skipBlank (comment.dropWhile (· != newline)) := skipBlank_of_some rfl rfl
    cases hend : comment.dropWhile (· != newline) with
    | nil =>
      refine .inr (hnone ?_)
      rw [hcomment, hend]
      exact skipBlank_of_nil rfl
    | cons c below =>
      have hc : c = newline := by
        have hnot := List.head?_dropWhile_not (· != newline) comment
        rw [hend] at hnot
        simpa using hnot
      subst hc
      have hbelow : text = restOfLine text ++ slash :: slash :: comment.takeWhile (· != newline) ++
          newline :: below := by
        rw [List.append_assoc, List.cons_append, List.cons_append, ← hend,
          List.takeWhile_append_dropWhile, htext]
      refine .inl (staysOnLine_eq_false hbelow ?_)
      rw [hskip, hcomment, hend, ← List.singleton_append, hnewline]
      exact length_skipBlank_le below

/-- A lexeme that is left of a line is ended by the text behind it, when no comment starts inside
the line. -/
theorem ends_of_restOfLine_append {lexeme more rest : Bytes}
    (hline : restOfLine (lexeme ++ rest) = lexeme ++ more)
    (hcomment : ¬ [slash, star] <:+: lexeme ++ more) (hjoins : Joins lexeme.getLast? more) :
    Ends lexeme rest := by
  have hrest : restOfLine rest = more := restOfLine_of_append lexeme hline
  constructor
  · intro a ha hword c hc
    rcases more with _ | ⟨d, more⟩
    · rcases cases_of_restOfLine_nil hrest with rfl | ⟨below, rfl⟩ | ⟨below, rfl⟩
      · cases hc
      · cases hc
        rfl
      · cases hc
        rfl
    · obtain ⟨tail, htail⟩ := restOfLine_isPrefix rest
      rw [← htail, hrest] at hc
      exact hjoins a ha hword c hc
  · rintro rfl c hc
    obtain ⟨tail, rfl⟩ := List.head?_eq_some_iff.mp hc
    rw [List.singleton_append, restOfLine_cons] at hline
    split at hline
    · cases hline
    · rename_i hgo
      constructor
      · rintro rfl
        exact hgo (.inr ⟨rfl, rfl⟩)
      · rintro rfl
        have hstar : restOfLine (star :: tail) = star :: restOfLine tail := by
          rw [restOfLine_cons, if_neg (by rintro (h | ⟨h, -⟩) <;> cases h)]
        rw [← hrest, hstar] at hcomment
        exact hcomment ⟨[], restOfLine tail, rfl⟩

/-- **Where a lexeme is left of a line without a comment inside, the next item starts with it.** -/
theorem next?_of_restOfLine {text lexeme more : Bytes}
    (hcomment : ¬ [slash, star] <:+: restOfLine text)
    (h : Lexeme.next? (restOfLine text) = some (lexeme, more)) :
    staysOnLine text ∧ ∃ rest, Lexeme.next? (skipBlank text) = some (lexeme, rest) ∧
      restOfLine rest = more := by
  obtain ⟨hlexeme, hline, hjoins⟩ := next?_eq_some h
  generalize hgap : (restOfLine text).takeWhile isBlank = gap at hline
  have hblank : ∀ c ∈ gap, isBlank c := fun c hc => List.mem_takeWhile_imp (hgap ▸ hc)
  obtain ⟨rest, rfl⟩ : ∃ rest, text = gap ++ (lexeme ++ rest) := by
    obtain ⟨tail, htext⟩ := restOfLine_isPrefix text
    refine ⟨more ++ tail, ?_⟩
    rw [← htext, hline, List.append_assoc, List.append_assoc]
  have hbehind : restOfLine (lexeme ++ rest) = lexeme ++ more := restOfLine_of_append gap hline
  have hends : Ends lexeme rest := by
    refine ends_of_restOfLine_append hbehind (fun hinfix => hcomment ?_) hjoins
    rw [hline]
    exact hinfix.trans (List.suffix_append gap _).isInfix
  have hskip := skipBlank_lexeme hblank hlexeme hends
  refine ⟨?_, rest, by rw [hskip]; exact next?_append hlexeme hends,
    restOfLine_of_append lexeme hbehind⟩
  have hnewline : newline ∉ gap := by
    intro hmem
    refine newline_not_mem_restOfLine (gap ++ (lexeme ++ rest)) ?_
    rw [hline]
    exact List.mem_append_left _ hmem
  rw [staysOnLine, hskip, List.length_append, Nat.add_sub_cancel, List.take_left]
  simpa using hnewline

/-- What is left of the line is words, with no comment between them. -/
structure PlainLine (text : Bytes) : Prop where
  noComment : ¬ [slash, star] <:+: restOfLine text
  words : ∀ l ∈ Lexeme.all (restOfLine text), l ≠ includeWord ∧ l ≠ defineWord

theorem PlainLine.rest {text rest lexeme : Bytes} (h : PlainLine text)
    (hnext : Lexeme.next? (restOfLine text) = some (lexeme, restOfLine rest)) : PlainLine rest := by
  constructor
  · intro hinfix
    obtain ⟨-, hline, -⟩ := next?_eq_some hnext
    refine h.noComment ?_
    rw [hline, ← List.append_assoc]
    exact hinfix.trans (List.suffix_append _ _).isInfix
  · intro l hl
    refine h.words l ?_
    rw [all_of_some hnext]
    exact List.mem_cons_of_mem _ hl

/-- A plain line is over, or it goes on with a word. -/
theorem PlainLine.over_or_word {text : Bytes} (h : PlainLine text) (total : Nat) :
    (Lexeme.all (restOfLine text) = [] ∧
      (staysOnLine text = false ∨ Item.next? total text = .ok none)) ∨
    ∃ lexeme rest, Lexeme.all (restOfLine text) = lexeme :: Lexeme.all (restOfLine rest) ∧
      PlainLine rest ∧ staysOnLine text ∧
      Item.next? total text = .ok (some (.word (Word.ofLexeme lexeme rest), rest)) := by
  rcases hnext : Lexeme.next? (restOfLine text) with _ | ⟨lexeme, more⟩
  · exact .inl ⟨Lexeme.all_of_none hnext, ends_of_restOfLine total hnext⟩
  · obtain ⟨hline, rest, hitem, rfl⟩ := next?_of_restOfLine h.noComment hnext
    have hall := Lexeme.all_of_some hnext
    obtain ⟨hinclude, hdefine⟩ := h.words lexeme (hall ▸ List.mem_cons_self)
    refine .inr ⟨lexeme, rest, hall, h.rest hnext, hline, ?_⟩
    rw [Item.next?, hitem]
    simp only [Item.ofLexeme, hinclude, hdefine, if_false]
    rfl

/-- **The tokens of the rest of a plain line are its words, and their spellings are its
lexemes.** -/
theorem Script.ReadsLine.exists_words {total : Nat} {text below : Bytes}
    {table table' : SpellingTable}
    {own : List TokenId} (h : Script.ReadsLine total text table own below table')
    (hplain : PlainLine text) :
    ∃ words : List Word, words.map (·.spelling) = Lexeme.all (restOfLine text) ∧
      Script.internWords table words = .ok (own, table') := by
  induction h with
  | ends hend =>
    rcases hplain.over_or_word total with ⟨hall, -⟩ | ⟨lexeme, rest, -, -, hline, hitem⟩
    · exact ⟨[], hall.symm, rfl⟩
    · rcases hend with hstop | hnone
      · rw [hstop] at hline
        cases hline
      · rw [hnone] at hitem
        cases hitem
  | @item text rest _ _ _ _ _ _ _ hline hitem hintern _ ih =>
    rcases hplain.over_or_word total with
      ⟨-, hstop | hnone⟩ | ⟨lexeme, rest', hall, hrest, -, hword⟩
    · rw [hstop] at hline
      cases hline
    · rw [hnone] at hitem
      cases hitem
    · rw [hword] at hitem
      cases hitem
      obtain ⟨words, hwords, hown⟩ := ih hrest
      simp only [Script.internItem] at hintern
      split at hintern
      · cases hintern
      · rename_i id table₁ hfirst
        cases hintern
        refine ⟨Word.ofLexeme lexeme rest :: words, ?_, ?_⟩
        · rw [List.map_cons, hwords, hall]
          rfl
        · simp only [Script.internWords, hfirst, hown]
          rfl

/-! ## 4. The tag of a conditional -/

theorem SpelledBy.exists_iff {table : SpellingTable} {ids : List TokenId} {lexemes : List Bytes}
    (h : SpelledBy table ids lexemes) (p : Bytes → Prop) :
    (∃ id ∈ ids, ∃ s, table.spelling? id = some s ∧ p s) ↔ ∃ l ∈ lexemes, p l := by
  induction h with
  | nil => simp
  | cons hspelling _ ih => simp [hspelling, ih]

/-- A conditional is a keyword, so its word needs no entry. -/
theorem Script.internWord_test {table table' : SpellingTable} {w : Word} {id : TokenId}
    (h : Script.internWord table w = .ok (id, table'))
    (htest : (TokenId.ofSpelling w.spelling).isEarlyTest) : table' = table := by
  unfold Script.internWord at h
  split at h
  · cases h
  · rename_i hintern
    cases h
    rcases SpellingTable.intern_eq_ok hintern with ⟨-, rfl⟩ | ⟨hfind, -, -⟩
    · rfl
    · have hhash := TokenId.isReserved_hash w.spelling
      rw [TokenId.ofSpelling, hfind, Option.getD_none] at htest
      simp only [TokenId.isEarlyTest, Bool.or_eq_true, decide_eq_true_eq] at htest
      rcases htest with (h | h) | h <;> rw [h] at hhash <;> cases hhash

theorem TokenId.deferred_ne_self {id : TokenId} (h : id.isEarlyTest) : id.deferred ≠ id := by
  simp only [TokenId.isEarlyTest, Bool.or_eq_true, decide_eq_true_eq] at h
  rcases h with (rfl | rfl) | rfl <;> decide

theorem Script.ReadsOn.isSorted {total : Nat} {text rest : Bytes} {table table' : SpellingTable}
    {ids : List TokenId} (h : Script.ReadsOn total text table ids rest table')
    (hsorted : table.isSorted) : table'.isSorted := by
  induction h with
  | refl => exact hsorted
  | item _ hintern _ ih => exact ih ((Script.internItem_extends hintern).isSorted hsorted)

/-- **When a conditional is late.**  Take a source and the place of a conditional that is no part of
a definition.  It stands in the script in one of its two forms, in front of the tokens of the rest
of its line, and in the late form exactly when its word is tagged.  On a line of words without a
comment inside, that is when one of these tokens is a flag of the second pass.  A comment to the end
of the line never changes the tag; a comment between two lexemes of the line changes it when it
mentions a flag that the line does not. -/
theorem conditional_tag {source : Bytes} {script : Script} (hread : Script.read source = .ok script)
    {before : List TokenId} {text behind : Bytes} {table : SpellingTable} {w : Word}
    (hcomes : Script.ReadsOn (Script.text source).length (Script.text source) .empty
      before text table)
    (hnext : Item.next? (Script.text source).length text = .ok (some (.word w, behind)))
    (htest : (TokenId.ofSpelling w.spelling).isEarlyTest) :
    let early := TokenId.ofSpelling w.spelling
    let late := fun rest => (Word.ofLexeme w.spelling rest).late
    (∃ id own beneath below table', script.ids = before ++ id :: (own ++ beneath) ∧
      Script.ReadsLine (Script.text source).length behind table own below table' ∧
      (id = early ∨ id = early.deferred) ∧ (id = early.deferred ↔ late behind) ∧
      (PlainLine behind → (id = early.deferred ↔
        ∃ o ∈ own, ∃ s, script.table.spelling? o = some s ∧ lateFlagStart <+: s))) ∧
    (∀ left comment tail, EndsLine tail →
      late (left ++ slash :: slash :: (comment ++ tail)) = late (left ++ tail)) ∧
    ∀ left comment right tail,
      newline ∉ left ++ slash :: star :: (comment ++ star :: slash :: right) →
      Joins left.getLast? right → EndsLine tail → ¬ [slash, slash] <:+: left ++ right →
      ¬ [slash, slash] <:+: left ++ slash :: star :: (comment ++ star :: slash :: right) →
      late (left ++ slash :: star :: (comment ++ star :: slash :: right) ++ tail)
        = (late (left ++ right ++ tail) || mentionsLateFlag comment) := by
  intro early late
  have hlate : ∀ rest, late rest = mentionsLateFlag (restOfLine rest) := fun rest => by
    simp only [late, Word.ofLexeme, htest, Bool.true_and]
  refine ⟨?_, fun left comment tail htail => ?_,
    fun left comment right tail hline hseam htail hopen hopen' => ?_⟩
  · obtain ⟨-, hw, -⟩ := Item.next?_eq_word hnext
    obtain ⟨after, hids, hafter⟩ := hcomes.exists_beneath hread
    obtain ⟨first, table₁, more, hintern, hmore, rfl⟩ := Script.exists_of_readFrom hnext hafter
    simp only [Script.internItem] at hintern
    split at hintern
    · cases hintern
    · rename_i id table₂ hword
      cases hintern
      obtain rfl := Script.internWord_test hword htest
      obtain ⟨own, below, table', hown⟩ := Script.exists_readsLine hmore
      obtain ⟨beneath, rfl, hbeneath⟩ := hown.readsOn.readFrom_eq hmore
      have hsorted := hcomes.isSorted rfl
      have hextends := Script.readFrom_extends hbeneath
      have hfinal := hextends.isSorted (hown.readsOn.isSorted hsorted)
      obtain ⟨hid, -⟩ := Script.internWord_id hword hsorted hsorted (List.Subset.refl _)
      have htag : id = early.deferred ↔ late behind := by
        have hne := TokenId.deferred_ne_self htest
        rw [hid, Word.id, show late behind = w.late by rw [hw]]
        cases w.late with
        | true => simp [early]
        | false => simpa [early] using hne.symm
      refine ⟨id, own, beneath, below, table', hids, hown, ?_, htag, fun hplain => ?_⟩
      · rw [hid, Word.id]
        split
        · exact .inr rfl
        · exact .inl rfl
      · obtain ⟨words, hwords, hinternWords⟩ := hown.exists_words hplain
        obtain ⟨-, hspelled⟩ := spelledBy_words hinternWords hsorted hfinal hextends.entries
        rw [htag, hlate, mentionsLateFlag_iff, hspelled.exists_iff, hwords]
  · rw [hlate, hlate, mentionsLateFlag_lineComment left (comment ++ tail) htail]
  · rw [hlate, hlate, mentionsLateFlag_comment hline hseam htail hopen hopen']

theorem item_if_percent : Item.next? 9 (Bytes.ofString "#if %_//b")
    = .ok (some (.word ⟨Bytes.ofString "#if", true⟩, Bytes.ofString " %_//b")) := by cbv

theorem readFrom_if_percent : Script.readFrom 9 (Bytes.ofString "#if %_//b") .empty
    = .ok ([TokenId.ifLate] ++ ([1392414333] ++ []), ⟨[⟨1392414333, lateFlagStart⟩]⟩) :=
  Script.readFrom_item item_if_percent (by cbv)
    (Script.readFrom_item (by cbv) (by cbv) (Script.readFrom_end (by cbv) _))

/-- A conditional on a flag, with a comment behind it. -/
theorem conditional_tag_flag :
    let script : Script := ⟨[TokenId.ifLate, 1392414333], ⟨[⟨1392414333, lateFlagStart⟩]⟩⟩
    Script.read (Bytes.ofString "#if %_//b") = .ok script ∧ PlainLine (Bytes.ofString " %_//b") ∧
      ∃ own beneath, script.ids = TokenId.ifLate :: (own ++ beneath) ∧
        ∃ o ∈ own, ∃ s, script.table.spelling? o = some s ∧ lateFlagStart <+: s := by
  intro script
  have hread : Script.read (Bytes.ofString "#if %_//b") = .ok script :=
    Script.read_of_readFrom ⟨by decide, rfl⟩ readFrom_if_percent
  have hall : Lexeme.all (restOfLine (Bytes.ofString " %_//b")) = [lateFlagStart] := by cbv
  have hplain : PlainLine (Bytes.ofString " %_//b") := by
    constructor
    · decide +kernel
    · rw [hall]
      decide +kernel
  obtain ⟨⟨id, own, beneath, below, table', hids, -, -, -, htag⟩, -, -⟩ :=
    conditional_tag hread (.refl _ _) item_if_percent (by decide +kernel)
  obtain ⟨hid, -⟩ := List.cons.inj hids
  refine ⟨hread, hplain, own, beneath, ?_, (htag hplain).mp ?_⟩
  · rw [hid]
    exact hids
  · rw [← hid]
    decide +kernel

theorem readFrom_if_comment : Script.readFrom 11 (Bytes.ofString "#if b/*%_*/") .empty
    = .ok ([TokenId.ifLate] ++ ([1908338681] ++ []), ⟨[⟨1908338681, [0x62]⟩]⟩) :=
  Script.readFrom_item (by cbv) (by cbv)
    (Script.readFrom_item (by cbv) (by cbv) (Script.readFrom_end (by cbv) _))

theorem readFrom_if_b : Script.readFrom 5 (Bytes.ofString "#if b") .empty
    = .ok ([TokenId.ifTest] ++ ([1908338681] ++ []), ⟨[⟨1908338681, [0x62]⟩]⟩) :=
  Script.readFrom_item (by cbv) (by cbv)
    (Script.readFrom_item (by cbv) (by cbv) (Script.readFrom_end (by cbv) _))

/-- A comment inside the line makes a conditional late, though no token of it is a flag. -/
theorem conditional_tag_comment :
    let table : SpellingTable := ⟨[⟨1908338681, [0x62]⟩]⟩
    Script.read (Bytes.ofString "#if b/*%_*/") = .ok ⟨[TokenId.ifLate, 1908338681], table⟩ ∧
      Script.read (Bytes.ofString "#if b") = .ok ⟨[TokenId.ifTest, 1908338681], table⟩ ∧
      table.spelling? 1908338681 = some [0x62] ∧ ¬ lateFlagStart <+: [0x62] := by
  intro table
  have hcomment : Script.read (Bytes.ofString "#if b/*%_*/")
      = .ok ⟨[TokenId.ifLate, 1908338681], table⟩ :=
    Script.read_of_readFrom ⟨by decide, rfl⟩ readFrom_if_comment
  have hplain : Script.read (Bytes.ofString "#if b") = .ok ⟨[TokenId.ifTest, 1908338681], table⟩ :=
    Script.read_of_readFrom ⟨by decide, rfl⟩ readFrom_if_b
  exact ⟨hcomment, hplain, by cbv, by decide⟩

end EffectScript
