import EffectScript.Proofs.Lexemes

/-!
# Definitions that are laid out

A definition takes the rest of its line: its name ends at the first blank, and its body at the end
of the line.  Layout knows nothing of that.  It puts a blank in front of a word only where two words
would meet, and it breaks the line at braces and semicolons.

So the first line of what is laid out is the run text of the ids in front of the first break
(`layoutFrom_firstLine`), and a definition is read from this line alone.  Main statement:
`definition_reread_iff`, which says what bodies are read back: those that start with a word and that
layout keeps on one line.
-/

namespace EffectScript

open Lexeme

/-! ## 1. How a definition is read -/

/-- A run of bytes that stops at the end of the line is found in front of it. -/
theorem takeWhile_line {p : UInt8 → Bool} (hp : p newline = false) (line : Bytes) {tail : Bytes}
    (htail : EndsLine tail) :
    (line ++ tail).takeWhile p = line.takeWhile p ∧
      (line ++ tail).dropWhile p = line.dropWhile p ++ tail := by
  induction line with
  | nil =>
    rcases tail with _ | ⟨c, tail⟩
    · exact ⟨rfl, rfl⟩
    · obtain rfl := htail c rfl
      simp [hp]
  | cons c line ih =>
    by_cases hc : p c
    · simp [hc, ih.1, ih.2]
    · simp [hc]

theorem rawBody_line {body tail : Bytes} (hbody : ∀ c ∈ body, c ≠ newline ∧ c ≠ 0x5C)
    (htail : EndsLine tail) : rawBody (body ++ tail) = (body, tail) := by
  induction body with
  | nil =>
    rcases tail with _ | ⟨c, tail⟩
    · simp [rawBody]
    · obtain rfl := htail c rfl
      simp [rawBody]
  | cons c body ih =>
    obtain ⟨⟨hline, hslash⟩, hrest⟩ := List.forall_mem_cons.mp hbody
    rw [List.cons_append, rawBody, if_neg hline, if_neg hslash, ih hrest]

theorem isBlank_of_isSpace {c : UInt8} (h : isSpace c) : isBlank c := by
  simp only [isSpace, Bool.or_eq_true, beq_iff_eq] at h
  rcases h with rfl | rfl
  · rfl
  · rfl

/-- **A definition is read from its line**: the name goes on up to the first blank, and the body is
what follows. -/
theorem Item.next?_define (total : Nat) {name rest tail : Bytes} (hne : name ≠ [])
    (hname : Solid name) (hrest : ∀ c ∈ rest, c ≠ newline ∧ c ≠ 0x5C) (htail : EndsLine tail) :
    ∃ body, Lexeme.all body = Lexeme.all (rest.dropWhile (!isBlank ·)) ∧
      Item.next? total (defineWord ++ 0x20 :: (name ++ (rest ++ tail)))
        = .ok (some (.definition (name ++ rest.takeWhile (!isBlank ·)) (Word.all body), tail)) := by
  refine ⟨Bytes.trimRight (fun c => isSpace c || c == newline)
    ((rest.dropWhile (!isBlank ·)).dropWhile isSpace), ?_, ?_⟩
  · rw [all_trimRight, all_dropWhile fun c hc => isBlank_of_isSpace hc]
    intro c hc
    rcases Bool.or_eq_true_iff.mp hc with hspace | hline
    · exact isBlank_of_isSpace hspace
    · rw [beq_iff_eq] at hline
      rw [hline]
      rfl
  · have hlexeme : IsLexeme defineWord := by decide +kernel
    have hends : Ends defineWord (0x20 :: (name ++ (rest ++ tail))) := by
      constructor
      · rintro - - - c ⟨⟩
        rfl
      · intro h
        exact absurd h (by decide)
    have hskip := skipBlank_lexeme (List.forall_mem_nil _) hlexeme hends
    rw [List.nil_append] at hskip
    have hspace : (0x20 :: (name ++ (rest ++ tail))).dropWhile isSpace
        = name ++ (rest ++ tail) := by
      obtain ⟨c, more, rfl⟩ := List.exists_cons_of_ne_nil hne
      have hc : isSpace c = false := by
        rw [Bool.eq_false_iff]
        intro hspace
        have hblank := isBlank_of_isSpace hspace
        rw [hname c List.mem_cons_self] at hblank
        cases hblank
      rw [List.dropWhile_cons_of_pos (by decide), List.cons_append,
        List.dropWhile_cons_of_neg (by simp [hc])]
    have hsolid : ∀ c ∈ name, (!isBlank c) = true := fun c hc => by rw [hname c hc]; rfl
    obtain ⟨htake, hdrop⟩ := takeWhile_line (p := (!isBlank ·)) rfl rest htail
    have hleft : ∀ c ∈ (rest.dropWhile (!isBlank ·)).dropWhile isSpace, c ≠ newline ∧ c ≠ 0x5C := by
      intro c hc
      exact hrest c ((List.dropWhile_sublist _).subset ((List.dropWhile_sublist _).subset hc))
    have hdefine : ¬ defineWord = includeWord := by decide
    rw [Item.next?, hskip, next?_append hlexeme hends]
    simp only [Item.ofLexeme, if_neg hdefine, if_true, definitionItem, hspace, definitionBody,
      List.takeWhile_append_of_pos hsolid, List.dropWhile_append_of_pos hsolid, htake, hdrop,
      (takeWhile_line (p := isSpace) rfl _ htail).2, rawBody_line hleft htail,
      List.append_eq_nil_iff, hne, false_and, if_false]
    rfl

/-- The lexemes can be the body of a definition: none starts a comment or governs the text behind
it. -/
structure IsBody (lexemes : List Bytes) : Prop where
  plain : ∀ l ∈ lexemes, l ∉ governingWords
  comment : lexemes.IsChain StartsNoComment

theorem IsBody.take {lexemes : List Bytes} (h : IsBody lexemes) (n : Nat) :
    IsBody (lexemes.take n) :=
  ⟨fun l hl => h.plain l (List.mem_of_mem_take hl), h.comment.take n⟩

/-- A definition whose name stands alone, with the lexemes behind it. -/
theorem Item.next?_define_blank (total : Nat) {name rest tail : Bytes} (hne : name ≠ [])
    (hname : Solid name) (hrest : ∀ c ∈ rest, c ≠ newline ∧ c ≠ 0x5C) (htail : EndsLine tail)
    (hblank : rest.takeWhile (!isBlank ·) = []) (hbody : IsBody (Lexeme.all rest)) :
    Item.next? total (defineWord ++ 0x20 :: (name ++ (rest ++ tail)))
      = .ok (some (.definition name (plainWords (Lexeme.all rest)), tail)) := by
  have hdrop : rest.dropWhile (!isBlank ·) = rest := by
    conv_rhs => rw [← List.takeWhile_append_dropWhile (p := (!isBlank ·)) (l := rest), hblank]
    rfl
  obtain ⟨body, hall, hnext⟩ := Item.next?_define total hne hname hrest htail
  rw [hdrop] at hall
  rw [← hall] at hbody
  rw [hnext, hblank, List.append_nil, Word.all_eq_plainWords hbody.comment hbody.plain, hall]

/-! ## 2. Words side by side -/

section RunText

variable {table : SpellingTable} {ids : List TokenId} {lexemes : List Bytes}

theorem runTextFrom_cons {id : TokenId} {l : Bytes} (h : table.spelling? id = some l)
    (last : Option UInt8) (rest : List TokenId) :
    runTextFrom table last (id :: rest) =
      (if needsBlank last l then 0x20 :: l else l) ++
        runTextFrom table (lastByte last (if needsBlank last l then 0x20 :: l else l)) rest := by
  rw [runTextFrom, SpellingTable.spellingOrName, h, Option.getD_some]

/-- **The run text of some ids is cut into their spellings again**, behind any text. -/
theorem all_runTextFrom (hspelled : SpelledBy table ids lexemes)
    (hlexemes : ∀ l ∈ lexemes, IsLexeme l) (last : Option UInt8) :
    Lexeme.all (runTextFrom table last ids) = lexemes ∧
      Joins last (runTextFrom table last ids) := by
  induction hspelled generalizing last with
  | nil =>
    refine ⟨all_blank (List.forall_mem_nil _), ?_⟩
    rintro - - - c ⟨⟩
  | @cons id l ids more hspelling hrest ih =>
    obtain ⟨hl, hmore⟩ := List.forall_mem_cons.mp hlexemes
    rw [runTextFrom_cons hspelling]
    generalize hhere : (if needsBlank last l then 0x20 :: l else l) = here
    have hall : Lexeme.all here = [l] := by
      rw [← hhere]
      split
      · exact (all_blank_append (List.forall_mem_singleton.mpr rfl) l).trans (all_lexeme hl)
      · exact all_lexeme hl
    have hne : here ≠ [] := by
      rintro rfl
      rw [all_blank (List.forall_mem_nil _)] at hall
      cases hall
    have hlast : lastByte last here = here.getLast? := by
      obtain ⟨c, hc⟩ := Option.isSome_iff_exists.mp (List.getLast?_isSome.mpr hne)
      rw [lastByte, hc]
      rfl
    obtain ⟨hafter, hjoins⟩ := ih hmore (lastByte last here)
    constructor
    · rw [all_append (hlast ▸ hjoins), hall, hafter, List.singleton_append]
    · rintro a rfl ha c hc
      rw [List.head?_append_of_ne_nil _ hne, ← hhere] at hc
      split at hc
      · cases hc
        rfl
      · rename_i hneeds
        simpa [needsBlank, hc, ha] using hneeds

theorem mem_runTextFrom (hspelled : SpelledBy table ids lexemes) {last : Option UInt8} {c : UInt8}
    (hc : c ∈ runTextFrom table last ids) : c = 0x20 ∨ ∃ l ∈ lexemes, c ∈ l := by
  induction hspelled generalizing last with
  | nil => cases hc
  | @cons id l ids more hspelling hrest ih =>
    rw [runTextFrom_cons hspelling] at hc
    rcases List.mem_append.mp hc with hc | hc
    · have hhere : c = 0x20 ∨ c ∈ l := by
        split at hc
        · exact List.mem_cons.mp hc
        · exact .inr hc
      rcases hhere with hblank | hl
      · exact .inl hblank
      · exact .inr ⟨l, List.mem_cons_self, hl⟩
    · rcases ih hc with hblank | ⟨m, hm, hcm⟩
      · exact .inl hblank
      · exact .inr ⟨m, List.mem_cons_of_mem _ hm, hcm⟩

end RunText

/-! ## 3. The first line of a layout -/

/-- Layout breaks the line behind the first of two ids. -/
def BreaksAfter (id next : TokenId) : Prop :=
  id = TokenId.semicolon ∨ id = TokenId.rightBrace ∧ next ≠ TokenId.semicolon

instance : DecidableRel BreaksAfter := fun id next =>
  inferInstanceAs
    (Decidable (id = TokenId.semicolon ∨ id = TokenId.rightBrace ∧ next ≠ TokenId.semicolon))

/-- The ids of a definition up to where layout first breaks its line: in front of a block, or behind
an id that more ids or the end of the definition follow. -/
def firstLine : List TokenId → List TokenId
  | [] => []
  | id :: rest =>
    if id = TokenId.leftBrace then []
    else if BreaksAfter id (rest.head?.getD TokenId.eol) then [id]
    else id :: firstLine rest

theorem firstLine_isPrefix (ids : List TokenId) : firstLine ids <+: ids := by
  induction ids with
  | nil => exact List.prefix_rfl
  | cons id rest ih =>
    rw [firstLine]
    split
    · exact List.nil_prefix
    · split
      · exact ⟨rest, rfl⟩
      · exact List.cons_prefix_cons.mpr ⟨rfl, ih⟩

/-- Layout keeps the ids on one line: there is no block among them, and it breaks behind none but
the last. -/
structure FitsOneLine (ids : List TokenId) : Prop where
  noBlock : TokenId.leftBrace ∉ ids
  noBreak : ids.IsChain fun id next => ¬ BreaksAfter id next

theorem firstLine_eq_self_iff {ids : List TokenId} : firstLine ids = ids ↔ FitsOneLine ids := by
  induction ids with
  | nil => exact ⟨fun _ => ⟨List.not_mem_nil, .nil⟩, fun _ => rfl⟩
  | cons id rest ih =>
    rw [firstLine]
    constructor
    · intro h
      split at h
      · cases h
      · rename_i hopen
        split at h
        · cases h
          exact ⟨by simpa using Ne.symm hopen, .singleton _⟩
        · rename_i hbreak
          obtain ⟨hblock, hchain⟩ := ih.mp (List.cons.inj h).2
          refine ⟨by simpa [Ne.symm hopen] using hblock, ?_⟩
          rcases rest with _ | ⟨next, rest⟩
          · exact .singleton _
          · exact .cons_cons hbreak hchain
    · rintro ⟨hblock, hchain⟩
      have hopen : id ≠ TokenId.leftBrace := fun h => hblock (h ▸ List.mem_cons_self)
      have hrest : firstLine rest = rest :=
        ih.mpr ⟨fun h => hblock (List.mem_cons_of_mem _ h), hchain.tail⟩
      rw [if_neg hopen, hrest]
      split
      · rename_i hbreak
        rcases rest with _ | ⟨next, rest⟩
        · rfl
        · exact absurd hbreak (hchain.rel_head? rfl)
      · rfl

/-- One token that opens no block: its spelling, and a line break where layout breaks behind it. -/
theorem layoutToken_eq {id : TokenId} (next : TokenId) {l : Bytes} (hopen : id ≠ TokenId.leftBrace)
    (hl : id = TokenId.semicolon → l = Bytes.ofString ";") (level : Nat) (last : Option UInt8) :
    ∃ level' inner, layoutToken id l (some next) level last =
      ((if needsBlank last l then 0x20 :: l else l) ++
        (if BreaksAfter id next then lineBreak inner else []), level') := by
  unfold layoutToken
  rw [if_neg hopen]
  by_cases hsemicolon : id = TokenId.semicolon
  · have hneeds : needsBlank last l = false := by
      rw [hl hsemicolon]
      cases last with
      | none => rfl
      | some a => simp [needsBlank, show (Bytes.ofString ";").head? = some 0x3B by decide,
          show isDelimiter 0x3B = true by decide]
    have hbreak : BreaksAfter id next := .inl hsemicolon
    simp only [if_pos hsemicolon, hneeds, if_pos hbreak, Bool.false_eq_true, if_false]
    split
    · exact ⟨level, level - 1, rfl⟩
    · exact ⟨level, level, rfl⟩
  · rw [if_neg hsemicolon]
    by_cases hclose : id = TokenId.rightBrace
    · have hbefore : (if needsBlank last l then [0x20] else []) ++ l
          = if needsBlank last l then 0x20 :: l else l := by
        split <;> rfl
      have hbreak : BreaksAfter id next ↔ ¬ next = TokenId.semicolon :=
        ⟨fun h => h.elim (absurd · hsemicolon) And.right, fun h => .inr ⟨hclose, h⟩⟩
      refine ⟨level - 1, level - 1, ?_⟩
      simp only [if_pos hclose, hbefore, hbreak, Option.isSome_some, Bool.true_and,
        bne_iff_ne, ne_eq, Option.some.injEq]
    · refine ⟨level, 0, ?_⟩
      have hbreak : ¬ BreaksAfter id next := by
        rintro (h | ⟨h, -⟩)
        · exact hsemicolon h
        · exact hclose h
      simp only [hclose, if_false, if_neg hbreak, List.append_nil]
      split <;> rfl

/-- **The first line of a definition that is laid out is the run text of its first ids**, and what
follows is a gap when nothing is left of the definition. -/
theorem layoutFrom_firstLine {table : SpellingTable} {ids : List TokenId} {lexemes : List Bytes}
    (hspelled : SpelledBy table ids lexemes) (hlexemes : ∀ l ∈ lexemes, l ≠ []) (index level : Nat)
    (last : Option UInt8) :
    ∃ back, layoutFrom table index level last (ids ++ [TokenId.eol])
        = (runTextFrom table last (firstLine ids) ++ newline :: back, none) ∧
      (firstLine ids = ids → Gap back) := by
  induction hspelled generalizing index level last with
  | nil => exact ⟨[], rfl, fun _ => List.forall_mem_nil _⟩
  | @cons id l ids more hspelling hrest ih =>
    obtain ⟨hl, hmore⟩ := List.forall_mem_cons.mp hlexemes
    obtain ⟨c, tail, rfl⟩ := List.exists_cons_of_ne_nil hl
    have hid : id ≠ TokenId.eol := by
      rintro rfl
      cases hspelling
    have hnext : (ids ++ [TokenId.eol]).head? = some (ids.head?.getD TokenId.eol) := by
      cases ids <;> rfl
    rw [List.cons_append, layoutFrom, if_neg hid, hspelling, firstLine]
    dsimp only
    rw [hnext]
    -- A block starts with a line break, so nothing of it stands on the first line.
    by_cases hopen : id = TokenId.leftBrace
    · obtain ⟨back, htext, -⟩ := ih hmore (index + 1) (level + 1) (lastByte last
        (layoutToken id (c :: tail) (some (ids.head?.getD TokenId.eol)) level last).1)
      rw [if_pos hopen]
      simp only [layoutToken, if_pos hopen] at htext ⊢
      rw [htext]
      exact ⟨_, rfl, fun h => by cases h⟩
    · have hsign : id = TokenId.semicolon → c :: tail = Bytes.ofString ";" := by
        rintro rfl
        exact (Option.some.inj hspelling).symm
      obtain ⟨level', inner, hhere⟩ :=
        layoutToken_eq (ids.head?.getD TokenId.eol) hopen hsign level last
      rw [hhere, if_neg hopen]
      dsimp only
      by_cases hbreak : BreaksAfter id (ids.head?.getD TokenId.eol)
      · simp only [if_pos hbreak]
        rw [runTextFrom_cons hspelling]
        generalize (if needsBlank last (c :: tail) then 0x20 :: c :: tail else c :: tail) = here
        obtain ⟨back, htext, hgap⟩ :=
          ih hmore (index + 1) level' (lastByte last (here ++ lineBreak inner))
        rw [htext]
        refine ⟨List.replicate (2 * inner) 0x20 ++
          (runTextFrom table (lastByte last (here ++ lineBreak inner)) (firstLine ids) ++
            newline :: back), by simp [lineBreak, runTextFrom], fun h => ?_⟩
        -- The break is behind the last id, so only the end of the definition follows.
        obtain rfl := (List.cons.inj h).2
        have hend : Gap (newline :: back) := List.forall_mem_cons.mpr ⟨.inl rfl, hgap rfl⟩
        have hindent : Gap (List.replicate (2 * inner) 0x20) := fun c hc =>
          .inr (List.eq_of_mem_replicate hc)
        exact hindent.append hend
      · simp only [if_neg hbreak, List.append_nil]
        rw [runTextFrom_cons hspelling]
        generalize (if needsBlank last (c :: tail) then 0x20 :: c :: tail else c :: tail) = here
        obtain ⟨back, htext, hgap⟩ := ih hmore (index + 1) level' (lastByte last here)
        rw [htext]
        exact ⟨back, by rw [List.append_assoc], fun h => hgap (List.cons.inj h).2⟩

/-! ## 4. A definition and its line -/

/-- The spelling of a word, as opposed to a sign. -/
def IsRun (l : Bytes) : Prop := l ≠ [] ∧ ∀ c ∈ l, isDelimiter c = false

instance : DecidablePred IsRun := fun l =>
  inferInstanceAs (Decidable (l ≠ [] ∧ ∀ c ∈ l, isDelimiter c = false))

namespace IsRun

variable {name : Bytes}

theorem solid (h : IsRun name) : Solid name := fun c hc => isBlank_eq_false (h.2 c hc)

theorem exists_getLast? (h : IsRun name) : ∃ a, name.getLast? = some a ∧ isDelimiter a = false :=
  ⟨name.getLast h.1, List.getLast?_eq_some_getLast h.1, h.2 _ (List.getLast_mem h.1)⟩

/-- A word is none of the signs at which layout breaks lines. -/
theorem firstLine_cons (h : IsRun name) {table : SpellingTable} {id : TokenId}
    (hid : table.spelling? id = some name) (rest : List TokenId) :
    firstLine (id :: rest) = id :: firstLine rest := by
  have hsign : ∀ (sign : TokenId) (c : UInt8), table.spelling? sign = some [c] → isDelimiter c →
      id ≠ sign := by
    rintro sign c hsign hc rfl
    rw [hid] at hsign
    cases hsign
    rw [h.2 c List.mem_cons_self] at hc
    cases hc
  have hopen : id ≠ TokenId.leftBrace := hsign _ 0x7B rfl rfl
  have hclose : id ≠ TokenId.rightBrace := hsign _ 0x7D rfl rfl
  have hsemicolon : id ≠ TokenId.semicolon := hsign _ 0x3B rfl rfl
  rw [firstLine, if_neg hopen, if_neg]
  rintro (h | ⟨h, -⟩)
  · exact hsemicolon h
  · exact hclose h

end IsRun

/-- The first of the lexemes, if there is one, is a word and not a sign. -/
def StartsWithWord (lexemes : List Bytes) : Prop := ∀ l, lexemes.head? = some l → IsRun l

/-- Behind a word, the run text of some ids starts with a blank when the first of them is a word,
and else goes on at once. -/
theorem takeWhile_runTextFrom {table : SpellingTable} {ids : List TokenId} {lexemes : List Bytes}
    (hspelled : SpelledBy table ids lexemes) (hlexemes : ∀ l ∈ lexemes, IsLexeme l) {a : UInt8}
    (ha : isDelimiter a = false) :
    (runTextFrom table (some a) ids).takeWhile (!isBlank ·) = [] ↔ StartsWithWord lexemes := by
  cases hspelled with
  | nil => exact ⟨fun _ l h => (by cases h), fun _ => rfl⟩
  | @cons id l ids more hspelling hrest =>
    rw [runTextFrom_cons hspelling]
    cases hlexemes l List.mem_cons_self with
    | @sign c hsign hblank =>
      have hneeds : needsBlank (some a) [c] = false := by simp [needsBlank, hsign]
      constructor
      · intro h
        simp [hneeds, hblank] at h
      · intro h
        have hc := (h _ rfl).2 c List.mem_cons_self
        rw [hsign] at hc
        cases hc
    | @run c rest hrun =>
      have hneeds : needsBlank (some a) (c :: rest) = true := by
        simp [needsBlank, ha, hrun c List.mem_cons_self]
      constructor
      · rintro - l ⟨⟩
        exact ⟨List.cons_ne_nil _ _, hrun⟩
      · intro h
        rw [if_pos hneeds, List.cons_append]
        exact List.takeWhile_cons_of_neg (by decide)

theorem Script.spelling?_defineId (table : SpellingTable) (name : Bytes) :
    table.spelling? (Script.defineId name) = some defineWord := by
  rw [Script.defineId]
  split <;> rfl

/-- **What is laid out for a definition**: the directive, the name, and behind it the run text of
the first ids of the body. -/
theorem layout_definition {table : SpellingTable} {name : Bytes} {id : TokenId} {own : List TokenId}
    {lexemes : List Bytes} (hname : IsRun name) (hid : table.spelling? id = some name)
    (hspelled : SpelledBy table own lexemes) (hlexemes : ∀ l ∈ lexemes, IsLexeme l) :
    ∃ back, layout table (Script.defineId name :: id :: (own ++ [TokenId.eol]))
        = (defineWord ++ 0x20 :: (name ++ (runTextFrom table name.getLast? (firstLine own) ++
            newline :: back)), none) ∧
      (firstLine own = own → Gap back) := by
  have hdefine := Script.spelling?_defineId table name
  have hword : IsRun defineWord := by decide +kernel
  have hall : SpelledBy table (Script.defineId name :: id :: own) (defineWord :: name :: lexemes) :=
    .cons hdefine (.cons hid hspelled)
  have hne : ∀ l ∈ defineWord :: name :: lexemes, l ≠ [] :=
    List.forall_mem_cons.mpr ⟨hword.1, List.forall_mem_cons.mpr ⟨hname.1, fun l hl =>
      (hlexemes l hl).ne_nil⟩⟩
  obtain ⟨back, htext, hgap⟩ := layoutFrom_firstLine hall hne 0 0 none
  have hblank : needsBlank (lastByte none defineWord) name = true := by
    obtain ⟨c, rest, rfl⟩ := List.exists_cons_of_ne_nil hname.1
    have hlast : lastByte none defineWord = some 0x65 := by decide +kernel
    simp [hlast, needsBlank, hname.2 c List.mem_cons_self, show isDelimiter 0x65 = false by decide]
  have hlast : lastByte (lastByte none defineWord) (0x20 :: name) = name.getLast? := by
    obtain ⟨a, ha, -⟩ := hname.exists_getLast?
    rw [lastByte, List.getLast?_cons, ha]
    rfl
  have hfirst : firstLine (Script.defineId name :: id :: own)
      = Script.defineId name :: id :: firstLine own := by
    rw [hword.firstLine_cons hdefine, hname.firstLine_cons hid]
  have hstart : needsBlank none defineWord = false := rfl
  rw [hfirst, runTextFrom_cons hdefine, runTextFrom_cons hid] at htext
  refine ⟨back, ?_, fun h => hgap (by rw [hfirst, h])⟩
  simpa only [layout, hstart, Bool.false_eq_true, if_false, hblank, if_true, hlast,
    List.cons_append, List.append_assoc, List.nil_append] using htext

theorem Script.internItem_definition {table table' : SpellingTable} {name : Bytes}
    {body : List Word}
    {ids : List TokenId} (h : Script.internItem table (.definition name body) = .ok (ids, table')) :
    ∃ id table₁ own, table.intern name = .ok (id, table₁) ∧
      Script.internWords table₁ body = .ok (own, table') ∧
      ids = Script.defineId name :: id :: (own ++ [TokenId.eol]) := by
  simp only [Script.internItem] at h
  split at h
  · cases h
  · rename_i id table₁ hname
    split at h
    · cases h
    · rename_i own table₂ hwords
      cases h
      exact ⟨id, table₁, own, hname, hwords, rfl⟩

/-- The text of a source that starts with a definition. -/
theorem Script.text_define {name rest : Bytes} (hname : Solid name) (hrest : ∀ c ∈ rest, c ≠ 0x0D)
    (tail : Bytes) :
    Script.text (defineWord ++ 0x20 :: (name ++ (rest ++ tail)))
      = defineWord ++ 0x20 :: (name ++ (rest ++ tail.filter (· != 0x0D))) := by
  have hname' : ∀ c ∈ name, (c != 0x0D) = true := by
    intro c hc
    rw [bne_iff_ne]
    rintro rfl
    cases hname _ hc
  have hrest' : ∀ c ∈ rest, (c != 0x0D) = true := fun c hc => bne_iff_ne.mpr (hrest c hc)
  have hword : defineWord.filter (· != 0x0D) = defineWord := by decide +kernel
  rw [Script.text, List.filter_append, hword, List.filter_cons_of_pos (by decide),
    List.filter_append,
    List.filter_eq_self.mpr hname', List.filter_append, List.filter_eq_self.mpr hrest']

/-- **A line with a definition is read as that definition**: reading it comes down to interning its
name and its lexemes. -/
theorem Script.read_define_iff {name rest tail : Bytes} {script : Script} (hname : IsRun name)
    (hrest : ∀ c ∈ rest, c ≠ newline ∧ c ≠ 0x0D ∧ c ≠ 0x5C) (htail : EndsLine tail)
    (hgap : Gap tail)
    (hblank : rest.takeWhile (!isBlank ·) = []) (hbody : IsBody (Lexeme.all rest)) :
    Script.read (defineWord ++ 0x20 :: (name ++ (rest ++ tail))) = .ok script ↔
      Script.internItem .empty (.definition name (plainWords (Lexeme.all rest)))
        = .ok (script.ids, script.table) := by
  have htext := Script.text_define hname.solid (fun c hc => (hrest c hc).2.1) tail
  have hreturn : tail.filter (· != 0x0D) = tail := by
    refine List.filter_eq_self.mpr fun c hc => ?_
    rcases hgap c hc with rfl | rfl
    · rfl
    · rfl
  rw [hreturn] at htext
  generalize htotal : (defineWord ++ 0x20 :: (name ++ (rest ++ tail))).length = total
  have hnext := Item.next?_define_blank total hname.1 hname.solid
    (fun c hc => ⟨(hrest c hc).1, (hrest c hc).2.2⟩) htail hblank hbody
  have hend := Item.next?_blank total fun c hc => hgap.isBlank hc
  constructor
  · intro hread
    have hfrom := Script.readFrom_of_read hread
    rw [htext, htotal] at hfrom
    obtain ⟨own, table₁, more, hintern, hmore, hids⟩ := Script.exists_of_readFrom hnext hfrom
    rw [Script.readFrom_end hend] at hmore
    cases hmore
    rw [hintern, hids, List.append_nil]
  · intro hintern
    have hfrom := Script.readFrom_item hnext hintern (Script.readFrom_end hend _)
    rw [List.append_nil] at hfrom
    exact Script.read_of_readFrom ⟨htext, htotal⟩ hfrom

/-- **What a script says about the definition line at its start**: it spells the name as far as it
goes, and where the name stands alone, the ids up to the end of the definition are those of the
lexemes behind it. -/
theorem Script.read_define {name rest below : Bytes} {script : Script} (hname : IsRun name)
    (hrest : ∀ c ∈ rest, c ≠ newline ∧ c ≠ 0x0D ∧ c ≠ 0x5C)
    (hbody : IsBody (Lexeme.all rest))
    (hread : Script.read (defineWord ++ 0x20 :: (name ++ (rest ++ newline :: below)))
      = .ok script) :
    ∃ first id own more, script.ids = first :: id :: (own ++ TokenId.eol :: more) ∧
      script.table.spelling? id = some (name ++ rest.takeWhile (!isBlank ·)) ∧
      (rest.takeWhile (!isBlank ·) = [] → own = (Lexeme.all rest).map TokenId.ofSpelling) := by
  have hfrom := Script.readFrom_of_read hread
  rw [Script.text_define hname.solid (fun c hc => (hrest c hc).2.1)] at hfrom
  have htail : EndsLine ((newline :: below).filter (· != 0x0D)) := by
    rintro c ⟨⟩
    rfl
  have hline : ∀ c ∈ rest, c ≠ newline ∧ c ≠ 0x5C := fun c hc => ⟨(hrest c hc).1, (hrest c hc).2.2⟩
  obtain ⟨body, -, hnext⟩ := Item.next?_define _ hname.1 hname.solid hline htail
  obtain ⟨ids, table₂, more, hintern, hmore, hids⟩ := Script.exists_of_readFrom hnext hfrom
  obtain ⟨id, table₁, own, hid, hwords, rfl⟩ := Script.internItem_definition hintern
  have hsorted := (SpellingTable.intern_extends hid).isSorted rfl
  have hextends := (Script.internWords_extends hwords).trans (Script.readFrom_extends hmore)
  refine ⟨Script.defineId (name ++ rest.takeWhile (!isBlank ·)), id, own, more, by simp [hids], ?_,
    fun hblank => ?_⟩
  · exact (SpellingTable.spelling?_of_intern hid rfl (hextends.isSorted hsorted) hextends.entries).2
  · rw [Item.next?_define_blank _ hname.1 hname.solid hline htail hblank hbody] at hnext
    simp only [Except.ok.injEq, Option.some.injEq, Prod.mk.injEq, Item.definition.injEq] at hnext
    rw [← hnext.1.2] at hwords
    exact (spelledBy_of_internWords hwords hsorted).1

theorem SpelledBy.eol_not_mem {table : SpellingTable} {ids : List TokenId} {lexemes : List Bytes}
    (h : SpelledBy table ids lexemes) : TokenId.eol ∉ ids := by
  induction h with
  | nil => exact List.not_mem_nil
  | cons hspelling _ ih =>
    refine List.not_mem_cons_of_ne_of_not_mem ?_ ih
    rintro rfl
    cases hspelling

theorem SpelledBy.take {table : SpellingTable} {ids : List TokenId} {lexemes : List Bytes}
    (h : SpelledBy table ids lexemes) (n : Nat) : SpelledBy table (ids.take n) (lexemes.take n) :=
  List.forall₂_take n h

/-! ## 5. What is read back -/

/-- A script that is one definition: its name and its lexemes are interned, and its table spells
them. -/
structure IsDefinition (script : Script) (name : Bytes) (own : List TokenId)
    (lexemes : List Bytes) : Prop where
  intern : Script.internItem .empty (.definition name (plainWords lexemes))
    = .ok (script.ids, script.table)
  ids : script.ids = Script.defineId name :: TokenId.ofSpelling name :: (own ++ [TokenId.eol])
  ofSpelling : own = lexemes.map TokenId.ofSpelling
  spelling : script.table.spelling? (TokenId.ofSpelling name) = some name
  spelled : SpelledBy script.table own lexemes

theorem IsDefinition.of_intern {script : Script} {name : Bytes} {lexemes : List Bytes}
    (h : Script.internItem .empty (.definition name (plainWords lexemes))
      = .ok (script.ids, script.table)) :
    IsDefinition script name (lexemes.map TokenId.ofSpelling) lexemes := by
  obtain ⟨id, table₁, own, hid, hwords, hids⟩ := Script.internItem_definition h
  have hsorted := (SpellingTable.intern_extends hid).isSorted rfl
  have hextends := Script.internWords_extends hwords
  obtain ⟨rfl, hspelled⟩ := spelledBy_of_internWords hwords hsorted
  obtain ⟨rfl, hname⟩ := SpellingTable.spelling?_of_intern hid rfl (hextends.isSorted hsorted)
    hextends.entries
  exact ⟨h, hids, rfl, hname, hspelled⟩

section Reread

variable {script : Script} {name : Bytes} {own : List TokenId} {lexemes : List Bytes} {a : UInt8}
  {back : Bytes}

/-- The bytes of the first line are blanks and those of the lexemes. -/
theorem IsDefinition.forall_mem_runTextFrom (h : IsDefinition script name own lexemes)
    (hlexemes : ∀ l ∈ lexemes, IsLexeme l ∧ 0x5C ∉ l) (last : Option UInt8) (n : Nat) :
    ∀ c ∈ runTextFrom script.table last (own.take n), c ≠ newline ∧ c ≠ 0x0D ∧ c ≠ 0x5C := by
  intro c hc
  rcases mem_runTextFrom (h.spelled.take n) hc with rfl | ⟨l, hl, hcl⟩
  · decide
  · obtain ⟨hlexeme, hhidden⟩ := hlexemes l (List.mem_of_mem_take hl)
    have hsolid := hlexeme.solid c hcl
    refine ⟨?_, ?_, ?_⟩
    · rintro rfl
      cases hsolid
    · rintro rfl
      cases hsolid
    · rintro rfl
      exact hhidden hcl

/-- Where the body starts with a word and the line is not broken, the line is the definition
again. -/
theorem IsDefinition.reread (h : IsDefinition script name own lexemes) (hname : IsRun name)
    (hlexemes : ∀ l ∈ lexemes, IsLexeme l ∧ 0x5C ∉ l) (hbody : IsBody lexemes)
    (ha : isDelimiter a = false) (hgap : Gap back) (hword : StartsWithWord lexemes) :
    Script.read (defineWord ++ 0x20 :: (name ++ (runTextFrom script.table (some a) own ++
      newline :: back))) = .ok script := by
  have hlexeme : ∀ l ∈ lexemes, IsLexeme l := fun l hl => (hlexemes l hl).1
  obtain ⟨hall, -⟩ := all_runTextFrom h.spelled hlexeme (some a)
  have hbytes := h.forall_mem_runTextFrom hlexemes (some a) own.length
  rw [List.take_length] at hbytes
  refine (Script.read_define_iff hname hbytes ?_ (List.forall_mem_cons.mpr ⟨.inl rfl, hgap⟩)
    ((takeWhile_runTextFrom h.spelled hlexeme ha).mpr hword) (hall ▸ hbody)).mpr (hall ▸ h.intern)
  rintro c ⟨⟩
  rfl

/-- If the line is the definition again, its name ends where it did, and nothing was broken off. -/
theorem IsDefinition.of_reread (h : IsDefinition script name own lexemes) (hname : IsRun name)
    (hlexemes : ∀ l ∈ lexemes, IsLexeme l ∧ 0x5C ∉ l) (hbody : IsBody lexemes)
    (ha : isDelimiter a = false)
    (hread : Script.read (defineWord ++ 0x20 ::
      (name ++ (runTextFrom script.table (some a) (firstLine own) ++ newline :: back)))
        = .ok script) :
    StartsWithWord lexemes ∧ firstLine own = own := by
  have hlexeme : ∀ l ∈ lexemes, IsLexeme l := fun l hl => (hlexemes l hl).1
  obtain ⟨n, hfirst⟩ : ∃ n, firstLine own = own.take n :=
    ⟨_, List.prefix_iff_eq_take.mp (firstLine_isPrefix own)⟩
  rw [hfirst] at hread ⊢
  obtain ⟨hall, -⟩ := all_runTextFrom (h.spelled.take n)
    (fun l hl => hlexeme l (List.mem_of_mem_take hl)) (some a)
  obtain ⟨first, id, own', more, hids, hspelling, hown⟩ :=
    Script.read_define hname (h.forall_mem_runTextFrom hlexemes _ n) (hall ▸ hbody.take n) hread
  rw [h.ids] at hids
  obtain ⟨-, hbehind⟩ := List.cons.inj hids
  obtain ⟨rfl, hbody⟩ := List.cons.inj hbehind
  -- The table spells the second id in one way, so the name that was read is the old one.
  have hblank : (runTextFrom script.table (some a) (own.take n)).takeWhile (!isBlank ·) = [] := by
    rw [h.spelling, Option.some.injEq] at hspelling
    exact List.self_eq_append_right.mp hspelling
  rw [hown hblank, hall, List.map_take, ← h.ofSpelling] at hbody
  have hsame : own.take n = own := by
    -- What was broken off would start with the end of a definition.
    have hrest : own.drop n ++ [TokenId.eol] = TokenId.eol :: more := by
      rw [← List.take_append_drop n own, List.append_assoc, List.take_append_drop] at hbody
      exact List.append_cancel_left hbody
    rcases hdrop : own.drop n with _ | ⟨id, rest⟩
    · exact List.take_of_length_le (List.drop_eq_nil_iff.mp hdrop)
    · rw [hdrop] at hrest
      obtain ⟨rfl, -⟩ := List.cons.inj hrest
      have hmem : TokenId.eol ∈ own := List.mem_of_mem_drop (hdrop ▸ List.mem_cons_self)
      exact absurd hmem h.spelled.eol_not_mem
  rw [hsame] at hblank ⊢
  exact ⟨(takeWhile_runTextFrom h.spelled hlexeme ha).mp hblank, rfl⟩

end Reread

/-- **A definition is read back from its layout exactly when its body starts with a word and layout
keeps it on one line.**  The name is a word, and the body is the rest of a line without
continuation, in which no lexeme starts a comment or governs the text behind it.  The tokens of the
line can always be written; where the body starts with a sign, that sign becomes part of the name,
and where the line is broken, the definition ends at the break. -/
theorem definition_reread_iff {name body ending : Bytes} {script : Script} (hname : IsRun name)
    (hbody : ∀ c ∈ body, c ≠ newline ∧ c ≠ 0x0D ∧ c ≠ 0x5C)
    (hplain : ∀ l ∈ Lexeme.all body, l ∉ governingWords)
    (hcomment : (Lexeme.all body).IsChain StartsNoComment)
    (hending : ending = [] ∨ ending = [newline])
    (hread : Script.read (defineWord ++ 0x20 :: (name ++ 0x20 :: (body ++ ending))) = .ok script) :
    script.ids = Script.defineId name :: TokenId.ofSpelling name ::
        ((Lexeme.all body).map TokenId.ofSpelling ++ [TokenId.eol]) ∧
      ∃ text, sourceText script.table true script.tokens = (text, none) ∧
        (Script.read text = .ok script ↔ StartsWithWord (Lexeme.all body) ∧
          FitsOneLine ((Lexeme.all body).map TokenId.ofSpelling)) := by
  have hlexemes : ∀ l ∈ Lexeme.all body, IsLexeme l ∧ 0x5C ∉ l := fun l hl =>
    ⟨isLexeme_of_mem_all body l hl, fun hc => (hbody _ (subset_of_mem_all hl hc)).2.2 rfl⟩
  have hindent : Lexeme.all (0x20 :: body) = Lexeme.all body :=
    all_blank_append (List.forall_mem_singleton.mpr rfl) body
  have hends : EndsLine ending ∧ Gap ending := by
    rcases hending with rfl | rfl
    · exact ⟨fun c hc => (by cases hc), List.forall_mem_nil _⟩
    · exact ⟨fun c hc => (by cases hc; rfl), List.forall_mem_singleton.mpr (.inl rfl)⟩
  have hline : ∀ c ∈ 0x20 :: body, c ≠ newline ∧ c ≠ 0x0D ∧ c ≠ 0x5C :=
    List.forall_mem_cons.mpr ⟨by decide, hbody⟩
  have hintern := (Script.read_define_iff hname hline hends.1 hends.2 rfl
    (hindent ▸ ⟨hplain, hcomment⟩)).mp hread
  rw [hindent] at hintern
  have h := IsDefinition.of_intern hintern
  obtain ⟨a, ha, hdelimiter⟩ := hname.exists_getLast?
  obtain ⟨back, hlayout, hgap⟩ :=
    layout_definition hname h.spelling h.spelled fun l hl => (hlexemes l hl).1
  rw [ha] at hlayout
  refine ⟨h.ids, _,
    by rw [sourceText, if_pos rfl, Script.tokens, unmarked_map_lit, h.ids]; exact hlayout, ?_⟩
  rw [← firstLine_eq_self_iff]
  constructor
  · exact h.of_reread hname hlexemes ⟨hplain, hcomment⟩ hdelimiter
  · rintro ⟨hword, hsame⟩
    rw [hsame]
    exact h.reread hname hlexemes ⟨hplain, hcomment⟩ hdelimiter (hgap hsame) hword

/-- A definition of `b`, with the lexemes of its body given. -/
theorem read_define_b {body : Bytes} {lexemes : List Bytes} {script : Script}
    (hall : Lexeme.all body = lexemes) (hbody : ∀ c ∈ body, c ≠ newline ∧ c ≠ 0x0D ∧ c ≠ 0x5C)
    (hplain : ∀ l ∈ lexemes, l ∉ governingWords) (hcomment : lexemes.IsChain StartsNoComment)
    (hintern : Script.internItem .empty (.definition [0x62] (plainWords lexemes))
      = .ok (script.ids, script.table)) :
    Script.read (defineWord ++ 0x20 :: ([0x62] ++ (0x20 :: body ++ []))) = .ok script := by
  have hline : Lexeme.all (0x20 :: body) = lexemes :=
    (all_blank_append (List.forall_mem_singleton.mpr rfl) body).trans hall
  have hname : IsRun [0x62] := by decide +kernel
  rw [← hline] at hplain hcomment hintern
  exact (Script.read_define_iff hname (List.forall_mem_cons.mpr ⟨by decide, hbody⟩)
    (by rintro c ⟨⟩) (List.forall_mem_nil _) rfl ⟨hplain, hcomment⟩).mpr hintern

theorem all_zero_close : Lexeme.all (Bytes.ofString "0 \x7d;") = [[0x30], [0x7D], [0x3B]] := by cbv

theorem layout_zero_close :
    layout ⟨[⟨1908338681, [0x62]⟩]⟩ [TokenId.define, 1908338681, TokenId.zero,
      TokenId.rightBrace, TokenId.semicolon, TokenId.eol]
    = (Bytes.ofString "#define b 0\x7d;\n\n", none) := by cbv

/-- A brace and a semicolon at the end of a body stay on its line. -/
theorem definition_reread_iff_close :
    let script : Script := ⟨[TokenId.define, 1908338681, TokenId.zero, TokenId.rightBrace,
      TokenId.semicolon, TokenId.eol], ⟨[⟨1908338681, [0x62]⟩]⟩⟩
    Script.read (Bytes.ofString "#define b 0 \x7d;") = .ok script ∧
      sourceText script.table true script.tokens = (Bytes.ofString "#define b 0\x7d;\n\n", none) ∧
      Script.read (Bytes.ofString "#define b 0\x7d;\n\n") = .ok script := by
  intro script
  have hplain : ∀ l ∈ ([[0x30], [0x7D], [0x3B]] : List Bytes), l ∉ governingWords := by
    decide +kernel
  have hcomment : ([[0x30], [0x7D], [0x3B]] : List Bytes).IsChain StartsNoComment := by decide
  have hbytes : ∀ c ∈ Bytes.ofString "0 \x7d;", c ≠ newline ∧ c ≠ 0x0D ∧
      c ≠ 0x5C := by decide +kernel
  have hread : Script.read (Bytes.ofString "#define b 0 \x7d;") = .ok script :=
    read_define_b all_zero_close hbytes hplain hcomment (by cbv)
  have hname : IsRun [0x62] := by decide +kernel
  obtain ⟨-, text, htext, hreread⟩ := definition_reread_iff hname hbytes (all_zero_close ▸ hplain)
    (all_zero_close ▸ hcomment) (.inl rfl) hread
  obtain rfl : Bytes.ofString "#define b 0\x7d;\n\n" = text :=
    congrArg Prod.fst (layout_zero_close.symm.trans htext)
  rw [all_zero_close] at hreread
  refine ⟨hread, layout_zero_close, hreread.mpr ⟨?_, by decide +kernel, by decide +kernel⟩⟩
  rintro l ⟨⟩
  decide +kernel

theorem all_zero_group : Lexeme.all (Bytes.ofString "(0)") = [[0x28], [0x30], [0x29]] := by cbv

theorem layout_zero_group : layout ⟨[⟨1908338681, [0x62]⟩]⟩ [TokenId.define, 1908338681,
      TokenId.leftParen, TokenId.zero, TokenId.rightParen, TokenId.eol]
    = (Bytes.ofString "#define b(0)\n", none) := by cbv

theorem readFrom_define_group : Script.readFrom 13 (Bytes.ofString "#define b(0)\n") .empty
    = .ok ([TokenId.define, 465656147, TokenId.eol] ++ [],
      ⟨[⟨465656147, Bytes.ofString "b(0)"⟩]⟩) := by
  have hitem : Item.next? 13 (Bytes.ofString "#define b(0)\n")
      = .ok (some (.definition (Bytes.ofString "b(0)") (Word.all []), [0x0A])) := by cbv
  rw [Word.all_of_none (by cbv)] at hitem
  exact Script.readFrom_item hitem (by cbv) (Script.readFrom_end (by cbv) _)

/-- A sign at the start of a body becomes part of the name. -/
theorem definition_reread_sign :
    let script : Script := ⟨[TokenId.define, 1908338681, TokenId.leftParen, TokenId.zero,
      TokenId.rightParen, TokenId.eol], ⟨[⟨1908338681, [0x62]⟩]⟩⟩
    let other : Script := ⟨[TokenId.define, 465656147, TokenId.eol],
      ⟨[⟨465656147, Bytes.ofString "b(0)"⟩]⟩⟩
    Script.read (Bytes.ofString "#define b (0)") = .ok script ∧
      sourceText script.table true script.tokens = (Bytes.ofString "#define b(0)\n", none) ∧
      Script.read (Bytes.ofString "#define b(0)\n") = .ok other ∧ other ≠ script := by
  intro script other
  have hread : Script.read (Bytes.ofString "#define b (0)") = .ok script :=
    read_define_b all_zero_group (by decide +kernel) (by decide +kernel) (by decide) (by cbv)
  have hother : Script.read (Bytes.ofString "#define b(0)\n") = .ok other :=
    Script.read_of_readFrom ⟨by decide +kernel, rfl⟩ readFrom_define_group
  exact ⟨hread, layout_zero_group, hother, by decide +kernel⟩

end EffectScript
