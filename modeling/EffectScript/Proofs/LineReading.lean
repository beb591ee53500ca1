import EffectScript.Proofs.Rereading

/-!
# A text is read line by line

Reading an item looks at the bytes that it takes and at the rest of their line: a word ends at the
next delimiter, a definition at the end of its line, and whether a conditional is for the second
pass is seen from the rest of its line.  It never looks further.  So what is read from the first
lines of a text is read from them whatever lines follow.

The functions that read take a stretch off the text.  For each of them it is said that the stretch
is what was taken, and that the same stretch is taken in front of any other text with the same rest
of line (`SameLine`).

Main statement: `ReadsOn.exists_stretch`.
-/

namespace EffectScript

/-! ## 1. Texts with the same rest of line -/

/-- The texts agree up to the end of a line. -/
def SameLine (text text' : Bytes) : Prop :=
  ∃ line below below', text = line ++ Lexeme.newline :: below ∧
    text' = line ++ Lexeme.newline :: below'

namespace SameLine

variable {text text' : Bytes}

theorem append (h : SameLine text text') (taken : Bytes) :
    SameLine (taken ++ text) (taken ++ text') := by
  obtain ⟨line, below, below', rfl, rfl⟩ := h
  exact ⟨taken ++ line, below, below', (List.append_assoc ..).symm, (List.append_assoc ..).symm⟩

/-- The same stretch may stand in front of both. -/
theorem front {taken rest rest' : Bytes} (h : SameLine rest rest') (htext : text = taken ++ rest) :
    SameLine text (taken ++ rest') := by
  rw [htext]
  exact h.append taken

theorem exists_cons {c : UInt8} {rest : Bytes} (h : SameLine (c :: rest) text') :
    ∃ rest', text' = c :: rest' := by
  obtain ⟨line, below, below', htext, rfl⟩ := h
  cases line with
  | nil =>
    cases htext
    exact ⟨below', rfl⟩
  | cons d line =>
    cases htext
    exact ⟨_, rfl⟩

theorem ne_nil (h : SameLine text text') : text ≠ [] := by
  obtain ⟨line, below, below', rfl, -⟩ := h
  exact List.append_ne_nil_of_right_ne_nil _ (List.cons_ne_nil _ _)

/-- Up to the end of the line they are the same. -/
theorem takeWhile_eq (h : SameLine text text') :
    text'.takeWhile (· != Lexeme.newline) = text.takeWhile (· != Lexeme.newline) := by
  obtain ⟨line, below, below', rfl, rfl⟩ := h
  have hstop : ∀ more, (Lexeme.newline :: more).takeWhile (· != Lexeme.newline) = [] :=
    fun more => rfl
  rw [List.takeWhile_append, List.takeWhile_append, hstop, hstop]

end SameLine

/-- A run of bytes is taken off a text, and the same run in front of a text that starts alike. -/
theorem dropWhile_stretch (p : UInt8 → Bool) (text : Bytes) :
    text = text.takeWhile p ++ text.dropWhile p ∧
      ∀ rest', SameLine (text.dropWhile p) rest' →
        (text.takeWhile p ++ rest').takeWhile p = text.takeWhile p ∧
          (text.takeWhile p ++ rest').dropWhile p = rest' := by
  refine ⟨(List.takeWhile_append_dropWhile).symm, fun rest' hsame => ?_⟩
  have hall : ∀ c ∈ text.takeWhile p, p c = true := by
    intro c hc
    exact List.all_eq_true.mp List.all_takeWhile c hc
  obtain ⟨c, rest, hrest⟩ := List.exists_cons_of_ne_nil hsame.ne_nil
  have hc : p c = false := by
    have hnot := List.head?_dropWhile_not p text
    rw [hrest] at hnot
    simpa using hnot
  rw [hrest] at hsame
  obtain ⟨more, rfl⟩ := hsame.exists_cons
  have hstop : ¬ p c = true := by simp [hc]
  rw [List.takeWhile_append_of_pos hall, List.dropWhile_append_of_pos hall,
    List.takeWhile_cons_of_neg hstop, List.dropWhile_cons_of_neg hstop, List.append_nil]
  exact ⟨rfl, rfl⟩

namespace Lexeme

/-! ## 2. Blanks, comments and lexemes -/

theorem afterComment_stretch (text : Bytes) :
    ∃ taken, text = taken ++ afterComment text ∧ (text ≠ [] → taken ≠ []) ∧
      ∀ rest', SameLine (afterComment text) rest' → afterComment (taken ++ rest') = rest' := by
  fun_induction afterComment text with
  | case1 => exact ⟨[], rfl, fun hne => hne, fun rest' hsame => absurd rfl hsame.ne_nil⟩
  | case2 c =>
    exact ⟨[c], rfl, fun _ => List.cons_ne_nil _ _, fun rest' hsame => absurd rfl hsame.ne_nil⟩
  | case3 c d tail hend =>
    refine ⟨[c, d], rfl, fun _ => List.cons_ne_nil _ _, fun rest' hsame => ?_⟩
    rw [List.cons_append, List.cons_append, List.nil_append, afterComment.eq_def]
    exact if_pos hend
  | case4 c d tail hend ih =>
    obtain ⟨taken, htaken, hne, hlocal⟩ := ih
    obtain ⟨d', more, rfl⟩ := List.exists_cons_of_ne_nil (hne (List.cons_ne_nil _ _))
    obtain ⟨rfl, -⟩ := List.cons.inj htaken
    refine ⟨c :: d :: more, congrArg (c :: ·) htaken, fun _ => List.cons_ne_nil _ _,
      fun rest' hsame => ?_⟩
    rw [List.cons_append, List.cons_append, afterComment.eq_def]
    exact (if_neg hend).trans (hlocal rest' hsame)

/-- A comment is taken off a text, -/
theorem dropComment?_stretch {text rest : Bytes} (h : dropComment? text = some rest) :
    ∃ taken, text = taken ++ rest ∧
      ∀ rest', SameLine rest rest' → dropComment? (taken ++ rest') = some rest' := by
  unfold dropComment? at h
  split at h
  · rename_i c d tail
    by_cases hline : c = slash ∧ d = slash
    · rw [if_pos hline] at h
      cases h
      obtain ⟨htaken, hlocal⟩ := dropWhile_stretch (· != newline) tail
      refine ⟨c :: d :: tail.takeWhile (· != newline), congrArg (c :: d :: ·) htaken,
        fun rest' hsame => ?_⟩
      rw [List.cons_append, List.cons_append, dropComment?, if_pos hline, (hlocal rest' hsame).2]
    · rw [if_neg hline] at h
      split at h
      · rename_i hblock
        cases h
        obtain ⟨taken, htaken, -, hlocal⟩ := afterComment_stretch tail
        refine ⟨c :: d :: taken, congrArg (c :: d :: ·) htaken, fun rest' hsame => ?_⟩
        rw [List.cons_append, List.cons_append, dropComment?, if_neg hline, if_pos hblock,
          hlocal rest' hsame]
      · cases h
  · cases h

/-- and where none starts, none does in a text that goes on alike. -/
theorem dropComment?_eq_none {text text' : Bytes} (h : dropComment? text = none)
    (hsame : SameLine text text') : dropComment? text' = none := by
  obtain ⟨line, below, below', rfl, rfl⟩ := hsame
  rcases line with _ | ⟨c, _ | ⟨d, line⟩⟩
  · cases below' <;> simp [dropComment?, newline, slash]
  · simp [dropComment?, newline, slash, star]
  · simp only [List.cons_append, dropComment?] at h ⊢
    by_cases hline : c = slash ∧ d = slash
    · rw [if_pos hline] at h
      cases h
    · rw [if_neg hline] at h ⊢
      by_cases hblock : c = slash ∧ d = star
      · rw [if_pos hblock] at h
        cases h
      · rw [if_neg hblock]

theorem skipBlank_of_some {text rest left : Bytes} {c : UInt8}
    (h : text.dropWhile isBlank = c :: rest) (hcomment : dropComment? (c :: rest) = some left) :
    skipBlank text = skipBlank left := by
  rw [skipBlank]
  split
  · simp_all
  · rename_i heq
    rw [h] at heq
    cases heq
    split
    · rename_i heq
      rw [hcomment] at heq
      cases heq
      rfl
    · simp_all

/-- Blanks and comments are taken off a text. -/
theorem skipBlank_stretch (text : Bytes) :
    ∃ taken, text = taken ++ skipBlank text ∧
      ∀ rest', SameLine (skipBlank text) rest' → skipBlank (taken ++ rest') = rest' := by
  induction text using skipBlank.induct with
  | case1 text hd =>
    rw [skipBlank_of_nil hd]
    exact ⟨text, (List.append_nil _).symm, fun rest' hsame => absurd rfl hsame.ne_nil⟩
  | case2 text c rest hd left h ih =>
    rw [skipBlank_of_some hd h]
    obtain ⟨taken, htaken, hlocal⟩ := ih
    obtain ⟨comment, hcomment, hdrop⟩ := dropComment?_stretch h
    obtain ⟨hblank, hskip⟩ := dropWhile_stretch isBlank text
    rw [hd] at hblank hskip
    refine ⟨text.takeWhile isBlank ++ comment ++ taken, ?_, fun rest' hsame => ?_⟩
    · rw [List.append_assoc, ← htaken, List.append_assoc, ← hcomment, ← hblank]
    · -- Each part is taken off in front of what the next one leaves.
      have hleft : SameLine left (taken ++ rest') := htaken ▸ hsame.append taken
      have hstart : SameLine (c :: rest) (comment ++ (taken ++ rest')) :=
        hcomment ▸ hleft.append comment
      obtain ⟨more, hmore⟩ := hstart.exists_cons
      have hdropped := hdrop _ hleft
      rw [List.append_assoc, List.append_assoc]
      rw [hmore] at hstart hdropped ⊢
      rw [skipBlank_of_some (hskip _ hstart).2 hdropped, hlocal rest' hsame]
  | case3 text c rest hd h =>
    rw [skipBlank_of_none hd h]
    obtain ⟨hblank, hskip⟩ := dropWhile_stretch isBlank text
    rw [hd] at hblank hskip
    refine ⟨text.takeWhile isBlank, hblank, fun rest' hsame => ?_⟩
    obtain ⟨more, rfl⟩ := hsame.exists_cons
    exact skipBlank_of_none (hskip _ hsame).2 (dropComment?_eq_none h hsame)

/-- A lexeme is taken off a text. -/
theorem next?_stretch {text lexeme rest : Bytes} (h : next? text = some (lexeme, rest)) :
    ∃ taken, text = taken ++ rest ∧
      ∀ rest', SameLine rest rest' → next? (taken ++ rest') = some (lexeme, rest') := by
  obtain ⟨hblank, hskip⟩ := dropWhile_stretch isBlank text
  unfold next? at h
  split at h
  · cases h
  · rename_i c tail htail
    rw [htail] at hblank hskip
    by_cases hc : isDelimiter c
    · rw [if_pos hc] at h
      cases h
      refine ⟨text.takeWhile isBlank ++ [c], by rw [List.append_assoc]; exact hblank,
        fun rest' hsame => ?_⟩
      have hdrop := (hskip _ (hsame.append [c])).2
      rw [next?, List.append_assoc, hdrop]
      exact if_pos hc
    · rw [if_neg hc] at h
      cases h
      obtain ⟨hword, hrun⟩ := dropWhile_stretch (!isDelimiter ·) tail
      refine ⟨text.takeWhile isBlank ++ c :: tail.takeWhile (!isDelimiter ·), ?_,
        fun rest' hsame => ?_⟩
      · rw [List.append_assoc, List.cons_append, ← hword]
        exact hblank
      · have hmore : SameLine (c :: tail) (c :: (tail.takeWhile (!isDelimiter ·) ++ rest')) := by
          have happend := hsame.append (c :: tail.takeWhile (!isDelimiter ·))
          rw [List.cons_append, ← hword] at happend
          exact happend
        obtain ⟨htake, hdrop⟩ := hrun rest' hsame
        rw [next?, List.append_assoc, List.cons_append, (hskip _ hmore).2]
        simp only [hc, Bool.false_eq_true, if_false, htake, hdrop]

end Lexeme

open Lexeme

/-! ## 3. Items -/

/-- The name of an included file is taken off a text. -/
theorem closeName_stretch {total : Nat} {closer : UInt8} {text name rest : Bytes}
    (h : closeName total closer text = .ok (name, rest)) :
    ∃ taken, text = taken ++ rest ∧ ∀ total' rest', SameLine rest rest' →
      closeName total' closer (taken ++ rest') = .ok (name, rest') := by
  obtain ⟨hname, hrun⟩ := dropWhile_stretch (fun c => c != closer && !isBlank c) text
  unfold closeName at h
  dsimp only at h
  split at h
  · cases h
  · rename_i c tail htail
    rw [htail] at hname hrun
    by_cases hc : c = closer
    · rw [if_pos hc] at h
      split at h
      · cases h
      · rename_i hne
        cases h
        refine ⟨text.takeWhile (fun c => c != closer && !isBlank c) ++ [c],
          by rw [List.append_assoc]; exact hname, fun total' rest' hsame => ?_⟩
        obtain ⟨htake, hdrop⟩ := hrun _ (hsame.append [c])
        unfold closeName
        dsimp only
        rw [List.append_assoc, htake, hdrop]
        simp only [List.singleton_append, hc, if_true, hne, if_false]
    · rw [if_neg hc] at h
      cases h

theorem includeName_stretch {total : Nat} {text name rest : Bytes}
    (h : includeName total text = .ok (name, rest)) :
    ∃ taken, text = taken ++ rest ∧ ∀ total' rest', SameLine rest rest' →
      includeName total' (taken ++ rest') = .ok (name, rest') := by
  obtain ⟨hspace, hrun⟩ := dropWhile_stretch isSpace text
  cases htail : text.dropWhile isSpace with
  | nil =>
    rw [includeName, htail] at h
    cases h
  | cons c tail =>
    -- Both kinds of opening brackets lead to a name in front of the closing one.
    obtain ⟨closer, hinclude⟩ : ∃ closer, ∀ total' text' tail', text'.dropWhile isSpace
        = c :: tail' →
        includeName total' text' = closeName total' closer tail' := by
      by_cases hquote : c = 0x22
      · refine ⟨0x22, fun total' text' tail' hdrop => ?_⟩
        rw [includeName, hdrop]
        exact if_pos hquote
      · by_cases hbracket : c = 0x3C
        · refine ⟨0x3E, fun total' text' tail' hdrop => ?_⟩
          rw [includeName, hdrop]
          exact (if_neg hquote).trans (if_pos hbracket)
        · rw [includeName, htail] at h
          simp only [hquote, hbracket, if_false] at h
          cases h
    rw [hinclude total text tail htail] at h
    obtain ⟨taken, rfl, hlocal⟩ := closeName_stretch h
    rw [htail] at hspace hrun
    refine ⟨text.takeWhile isSpace ++ c :: taken, by rw [List.append_assoc]; exact hspace,
      fun total' rest' hsame => ?_⟩
    have hdrop := (hrun _ (hsame.append (c :: taken))).2
    rw [← List.append_assoc] at hdrop
    rw [hinclude total' _ (taken ++ rest') hdrop]
    exact hlocal total' rest' hsame

/-- The rest of the line of a definition is taken off a text, with the lines on which it goes on. -/
theorem rawBody_stretch (text : Bytes) :
    ∃ taken, text = taken ++ (rawBody text).2 ∧ ∀ rest', SameLine (rawBody text).2 rest' →
      rawBody (taken ++ rest') = ((rawBody text).1, rest') := by
  induction text using rawBody.induct with
  | case1 =>
    refine ⟨[], by simp [rawBody], fun rest' hsame => absurd ?_ hsame.ne_nil⟩
    simp [rawBody]
  | case2 rest =>
    rw [rawBody, if_pos rfl]
    refine ⟨[], rfl, fun rest' hsame => ?_⟩
    obtain ⟨more, rfl⟩ := hsame.exists_cons
    rw [List.nil_append, rawBody, if_pos rfl]
  | case3 rest _ _ _ _ ih =>
    have hraw : ∀ text', rawBody (0x5C :: text')
        = (newline :: (rawBody ((text'.dropWhile (· != newline)).drop 1)).1,
            (rawBody ((text'.dropWhile (· != newline)).drop 1)).2) := by
      intro text'
      rw [rawBody, if_neg (by decide), if_pos rfl]
    obtain ⟨hline, hrun⟩ := dropWhile_stretch (· != newline) rest
    rw [hraw]
    cases hend : rest.dropWhile (· != newline) with
    | nil =>
      refine ⟨0x5C :: rest, by simp [rawBody], fun rest' hsame => absurd ?_ hsame.ne_nil⟩
      simp [rawBody]
    | cons c more =>
      rw [hend] at ih hline hrun
      obtain ⟨taken, htaken, hlocal⟩ := ih
      rw [List.drop_succ_cons, List.drop_zero] at htaken hlocal
      rw [List.drop_succ_cons, List.drop_zero]
      refine ⟨0x5C :: (rest.takeWhile (· != newline) ++ c :: taken), ?_, fun rest' hsame => ?_⟩
      · rw [List.cons_append, List.append_assoc, List.cons_append, ← htaken, ← hline]
      · have hmore : SameLine (c :: more) (c :: (taken ++ rest')) := by
          have happend := hsame.append (c :: taken)
          rw [List.cons_append, ← htaken] at happend
          exact happend
        rw [List.cons_append, hraw, List.append_assoc, List.cons_append, (hrun _ hmore).2,
          List.drop_succ_cons, List.drop_zero, hlocal rest' hsame]
  | case4 c rest hn hc body left hb ih =>
    obtain ⟨taken, htaken, hlocal⟩ := ih
    have hraw : ∀ text', rawBody (c :: text') = (c :: (rawBody text').1, (rawBody text').2) := by
      intro text'
      rw [rawBody, if_neg hn, if_neg hc]
    rw [hraw]
    refine ⟨c :: taken, congrArg (c :: ·) htaken, fun rest' hsame => ?_⟩
    rw [List.cons_append, hraw, hlocal rest' hsame]

theorem definitionItem_stretch {total : Nat} {text rest : Bytes} {item : Item}
    (h : definitionItem total text = .ok (item, rest)) :
    ∃ taken, text = taken ++ rest ∧ ∀ total' rest', SameLine rest rest' →
      definitionItem total' (taken ++ rest') = .ok (item, rest') := by
  obtain ⟨hspace, hspaceRun⟩ := dropWhile_stretch isSpace text
  obtain ⟨hname, hnameRun⟩ := dropWhile_stretch (!isBlank ·) (text.dropWhile isSpace)
  obtain ⟨hgap, hgapRun⟩ :=
    dropWhile_stretch isSpace ((text.dropWhile isSpace).dropWhile (!isBlank ·))
  obtain ⟨taken, htaken, hbody⟩ :=
    rawBody_stretch (((text.dropWhile isSpace).dropWhile (!isBlank ·)).dropWhile isSpace)
  unfold definitionItem definitionBody at h
  dsimp only at h
  split at h
  · cases h
  · rename_i hne
    cases h
    generalize hline : text.dropWhile isSpace = line at *
    generalize hbehind : line.dropWhile (!isBlank ·) = behind at *
    generalize hraw : behind.dropWhile isSpace = raw at *
    refine ⟨text.takeWhile isSpace ++ (line.takeWhile (!isBlank ·)
      ++ (behind.takeWhile isSpace ++ taken)), ?_, fun total' rest' hsame => ?_⟩
    · rw [List.append_assoc, List.append_assoc, List.append_assoc, ← htaken, ← hgap,
        ← hname, ← hspace]
    · -- Each of the four parts is taken off in front of those behind it.
      have hsame₁ := hsame.front htaken
      have hsame₂ := hsame₁.front hgap
      have hsame₃ := hsame₂.front hname
      obtain ⟨-, hdrop₃⟩ := hspaceRun _ hsame₃
      obtain ⟨htake₂, hdrop₂⟩ := hnameRun _ hsame₂
      obtain ⟨-, hdrop₁⟩ := hgapRun _ hsame₁
      unfold definitionItem definitionBody
      dsimp only
      rw [List.append_assoc, List.append_assoc, List.append_assoc, hdrop₃, htake₂, hdrop₂, hdrop₁,
        hbody rest' hsame, if_neg hne]

/-- What follows the first lexeme of an item is taken off a text.  A word takes nothing, but looks
at the rest of its line. -/
theorem Item.ofLexeme_stretch {total : Nat} {lexeme text rest : Bytes} {item : Item}
    (h : Item.ofLexeme total lexeme text = .ok (item, rest)) :
    ∃ taken, text = taken ++ rest ∧ ∀ total' rest', SameLine rest rest' →
      Item.ofLexeme total' lexeme (taken ++ rest') = .ok (item, rest') := by
  by_cases hinclude : lexeme = includeWord
  · rw [Item.ofLexeme, if_pos hinclude] at h
    cases hname : includeName total text with
    | error e =>
      rw [hname] at h
      cases h
    | ok pair =>
      obtain ⟨name, left⟩ := pair
      rw [hname] at h
      cases h
      obtain ⟨taken, htaken, hlocal⟩ := includeName_stretch hname
      refine ⟨taken, htaken, fun total' rest' hsame => ?_⟩
      rw [Item.ofLexeme, if_pos hinclude, hlocal total' rest' hsame]
      rfl
  · rw [Item.ofLexeme, if_neg hinclude] at h
    by_cases hdefine : lexeme = defineWord
    · rw [if_pos hdefine] at h
      obtain ⟨taken, htaken, hlocal⟩ := definitionItem_stretch h
      refine ⟨taken, htaken, fun total' rest' hsame => ?_⟩
      rw [Item.ofLexeme, if_neg hinclude, if_pos hdefine, hlocal total' rest' hsame]
    · rw [if_neg hdefine] at h
      cases h
      refine ⟨[], rfl, fun total' rest' hsame => ?_⟩
      rw [List.nil_append, Item.ofLexeme, if_neg hinclude, if_neg hdefine, Word.ofLexeme,
        Word.ofLexeme, restOfLine, restOfLine, hsame.takeWhile_eq]

/-- **An item is taken off a text, with no look behind its line.** -/
theorem Item.next?_stretch {total : Nat} {text rest : Bytes} {item : Item}
    (h : Item.next? total text = .ok (some (item, rest))) :
    ∃ taken, text = taken ++ rest ∧ ∀ total' rest', SameLine rest rest' →
      Item.next? total' (taken ++ rest') = .ok (some (item, rest')) := by
  obtain ⟨blank, hblank, hskip⟩ := skipBlank_stretch text
  unfold Item.next? at h
  split at h
  · cases h
  · rename_i lexeme behind hnext
    obtain ⟨word, hword, hlexeme⟩ := Lexeme.next?_stretch hnext
    cases hitem : Item.ofLexeme total lexeme behind with
    | error e =>
      rw [hitem] at h
      cases h
    | ok pair =>
      rw [hitem] at h
      cases h
      obtain ⟨taken, htaken, hlocal⟩ := Item.ofLexeme_stretch hitem
      refine ⟨blank ++ (word ++ taken), ?_, fun total' rest' hsame => ?_⟩
      · rw [List.append_assoc, List.append_assoc, ← htaken, ← hword, ← hblank]
      · have hsame₁ := hsame.front htaken
        have hsame₂ := hsame₁.front hword
        rw [Item.next?, List.append_assoc, List.append_assoc, hskip _ hsame₂]
        simp only [hlexeme _ hsame₁, hlocal total' rest' hsame]
        rfl

/-! ## 4. Reading on -/

namespace Script

/-- Reading goes on from a text and a table over some ids to the rest of the text and another
table. -/
inductive ReadsOn (total : Nat) :
    Bytes → SpellingTable → List TokenId → Bytes → SpellingTable → Prop
  | refl (text : Bytes) (table : SpellingTable) : ReadsOn total text table [] text table
  | item {text rest rest' : Bytes} {table table₁ table₂ : SpellingTable} {item : Item}
      {ids more : List TokenId} (hitem : Item.next? total text = .ok (some (item, rest)))
      (hintern : internItem table item = .ok (ids, table₁))
      (hmore : ReadsOn total rest table₁ more rest' table₂) :
      ReadsOn total text table (ids ++ more) rest' table₂

variable {total : Nat} {text rest : Bytes} {table table₁ table₂ : SpellingTable}
  {ids more : List TokenId}

theorem ReadsOn.trans {rest' : Bytes} (h : ReadsOn total text table ids rest table₁)
    (h' : ReadsOn total rest table₁ more rest' table₂) :
    ReadsOn total text table (ids ++ more) rest' table₂ := by
  induction h with
  | refl => exact h'
  | item hitem hintern _ ih =>
    rw [List.append_assoc]
    exact .item hitem hintern (ih h')

/-- What is read from a text is read from it up to any place, and then from there. -/
theorem ReadsOn.readFrom_eq (h : ReadsOn total text table ids rest table₁)
    (hread : readFrom total text table = .ok (more, table₂)) :
    ∃ left, more = ids ++ left ∧ readFrom total rest table₁ = .ok (left, table₂) := by
  induction h generalizing more with
  | refl => exact ⟨more, rfl, hread⟩
  | item hitem hintern _ ih =>
    rw [readFrom] at hread
    split at hread
    · cases hread
    · simp_all
    · rename_i hnext
      rw [hitem] at hnext
      cases hnext
      simp only [hintern] at hread
      split at hread
      · cases hread
      · rename_i hmore
        cases hread
        obtain ⟨left, rfl, hleft⟩ := ih hmore
        exact ⟨left, (List.append_assoc ..).symm, hleft⟩

/-- **What is read from the first lines of a text is read from them whatever lines follow.** -/
theorem ReadsOn.exists_stretch (h : ReadsOn total text table ids rest table₁) :
    ∃ taken, text = taken ++ rest ∧ ∀ total' rest', SameLine rest rest' →
      ReadsOn total' (taken ++ rest') table ids rest' table₁ := by
  induction h with
  | refl text table => exact ⟨[], rfl, fun total' rest' _ => .refl rest' _⟩
  | item hitem hintern _ ih =>
    obtain ⟨taken, htaken, hlocal⟩ := Item.next?_stretch hitem
    obtain ⟨more, hmore, honward⟩ := ih
    refine ⟨taken ++ more, by rw [List.append_assoc, ← hmore, ← htaken],
      fun total' rest' hsame => ?_⟩
    rw [List.append_assoc]
    exact .item (hlocal total' _ (hsame.front hmore)) hintern (honward total' rest' hsame)

end Script

end EffectScript
