import EffectScript.Proofs.Spellings
import EffectScript.Storage.Bin

/-!
# The words of a source

What reading a source puts into its script: a spelling holds no blank, because lexemes, the names of
definitions and the names between brackets all end at one (`Script.read_solid`); and an id is the
end of a definition, a keyword, or a hash that the table spells (`Script.read_spelled`).

The spellings of an item are named apart from how it is read (`Item.spellings`), so that what is
true of a spelling in the text can be carried into the table.

Main statements: `Script.read_solid` and `Script.read_spelled`.  Sections 4 and 5 say how a source
is read item by item, and what the bin of a source is.
-/

namespace EffectScript

/-! ## 1. Spellings without blanks -/

namespace Lexeme

/-- No byte of the text is blank. -/
def Solid (text : Bytes) : Prop := ∀ c ∈ text, isBlank c = false

theorem Solid.of_subset {text more : Bytes} (h : Solid text) (hsub : more ⊆ text) : Solid more :=
  fun c hc => h c (hsub hc)

theorem isBlank_eq_false {c : UInt8} (h : isDelimiter c = false) : isBlank c = false := by
  simp only [isDelimiter, Bool.or_eq_false_iff] at h
  exact h.1.1.1.1.1.1.1

/-- The bytes before the first that `p` refuses are solid, when `p` refuses blanks. -/
theorem solid_takeWhile {p : UInt8 → Bool} (hp : ∀ c, p c → isBlank c = false) (text : Bytes) :
    Solid (text.takeWhile p) := by
  intro c hc
  exact hp c (List.all_eq_true.mp (List.all_takeWhile (p := p) (l := text)) c hc)

/-- **A lexeme holds no blank.** -/
theorem solid_next? {text lexeme rest : Bytes} (h : next? text = some (lexeme, rest)) :
    Solid lexeme := by
  unfold next? at h
  split at h
  · cases h
  · rename_i c tail htail
    have hc : isBlank c = false := by
      have hne : text.dropWhile isBlank ≠ [] := by simp [htail]
      simpa [htail] using List.head_dropWhile_not isBlank hne
    have hrun : Solid (tail.takeWhile (!isDelimiter ·)) :=
      solid_takeWhile (fun d hd => isBlank_eq_false (by simpa using hd)) tail
    intro d hd
    split at h
    · cases h
      rw [List.mem_singleton.mp hd]
      exact hc
    · cases h
      rcases List.mem_cons.mp hd with rfl | hd
      · exact hc
      · exact hrun d hd

end Lexeme

open Lexeme

theorem Word.solid_all (text : Bytes) : ∀ w ∈ Word.all text, Solid w.spelling := by
  fun_induction Word.all text with
  | case1 => simp
  | case2 text lexeme rest hnext ih =>
    intro w hw
    rcases List.mem_cons.mp hw with rfl | hw
    · exact solid_next? hnext
    · exact ih w hw

theorem Path.stripExtension_subset (path : Bytes) : Path.stripExtension path ⊆ path := by
  intro c hc
  unfold Path.stripExtension at hc
  split at hc
  · rename_i d stem htail
    split at hc
    · have hmem : c ∈ path.reverse.dropWhile fun c => c != Path.dot && c != Path.slash := by
        rw [htail]
        exact List.mem_cons_of_mem _ (List.mem_reverse.mp hc)
      exact List.mem_reverse.mp ((List.dropWhile_sublist _).subset hmem)
    · exact hc
  · exact hc

theorem solid_closeName {total : Nat} {closer : UInt8} {text name rest : Bytes}
    (h : closeName total closer text = .ok (name, rest)) : Solid name := by
  have hinside : Solid (text.takeWhile fun c => c != closer && !isBlank c) := by
    refine solid_takeWhile (fun c hc => ?_) text
    simpa using (Bool.and_eq_true_iff.mp hc).2
  unfold closeName at h
  dsimp only at h
  split at h
  · cases h
  · split at h
    · split at h
      · cases h
      · cases h
        exact hinside.of_subset (Path.stripExtension_subset _)
    · cases h

theorem solid_includeName {total : Nat} {text name rest : Bytes}
    (h : includeName total text = .ok (name, rest)) : Solid name := by
  unfold includeName at h
  repeat' split at h
  · cases h
  · exact solid_closeName h
  · exact solid_closeName h
  · cases h

/-- The spellings of an item, in the order in which they are met. -/
def Item.spellings : Item → List Bytes
  | .word w => [w.spelling]
  | .inclusion name => [name]
  | .definition name body => name :: body.map (·.spelling)

theorem solid_definitionItem {total : Nat} {text rest : Bytes} {item : Item}
    (h : definitionItem total text = .ok (item, rest)) : ∀ s ∈ item.spellings, Solid s := by
  unfold definitionItem at h
  dsimp only at h
  split at h
  · cases h
  · cases h
    intro s hs
    simp only [Item.spellings, List.mem_cons, List.mem_map] at hs
    rcases hs with rfl | ⟨w, hw, rfl⟩
    · exact solid_takeWhile (fun c hc => by simpa using hc) _
    · exact Word.solid_all _ w hw

/-- **The spellings of an item hold no blank.** -/
theorem Item.solid_next? {total : Nat} {text rest : Bytes} {item : Item}
    (h : Item.next? total text = .ok (some (item, rest))) : ∀ s ∈ item.spellings, Solid s := by
  unfold Item.next? at h
  split at h
  · cases h
  · rename_i lexeme tail hlexeme
    cases hitem : Item.ofLexeme total lexeme tail with
    | error c =>
      rw [hitem] at h
      cases h
    | ok pair =>
      rw [hitem] at h
      cases h
      unfold Item.ofLexeme at hitem
      split at hitem
      · cases hname : includeName total tail with
        | error c =>
          rw [hname] at hitem
          cases hitem
        | ok found =>
          rw [hname] at hitem
          cases hitem
          simpa [Item.spellings] using solid_includeName hname
      · split at hitem
        · exact solid_definitionItem hitem
        · cases hitem
          simpa [Item.spellings, Word.ofLexeme] using Lexeme.solid_next? hlexeme

/-! ## 2. The entries of a table -/

namespace SpellingTable

/-- Interning adds no entry but one of the spelling. -/
theorem mem_of_intern {table table' : SpellingTable} {spelling : Bytes} {id : TokenId}
    (h : table.intern spelling = .ok (id, table')) {e : SpellingEntry} (he : e ∈ table'.entries) :
    e ∈ table.entries ∨ e.spelling = spelling := by
  rcases intern_eq_ok h with ⟨-, rfl⟩ | ⟨-, -, hinsert⟩
  · exact .inl he
  · rcases insert_eq_ok hinsert with ⟨_, -, -, rfl⟩ | ⟨-, rfl⟩
    · exact .inl he
    · simp only [List.mem_append, List.mem_cons] at he
      rcases he with he | rfl | he
      · exact .inl (List.mem_of_mem_take he)
      · exact .inr rfl
      · exact .inl (List.mem_of_mem_drop he)

end SpellingTable

namespace Script

variable {table table' : SpellingTable} {ids : List TokenId}

theorem mem_of_internWord {w : Word} {id : TokenId} (h : internWord table w = .ok (id, table'))
    {e : SpellingEntry} (he : e ∈ table'.entries) :
    e ∈ table.entries ∨ e.spelling = w.spelling := by
  unfold internWord at h
  split at h
  · cases h
  · rename_i hintern
    cases h
    exact SpellingTable.mem_of_intern hintern he

theorem mem_of_internWords {words : List Word} (h : internWords table words = .ok (ids, table'))
    {e : SpellingEntry} (he : e ∈ table'.entries) :
    e ∈ table.entries ∨ e.spelling ∈ words.map (·.spelling) := by
  induction words generalizing table ids with
  | nil =>
    cases h
    exact .inl he
  | cons w rest ih =>
    rw [internWords] at h
    split at h
    · cases h
    · rename_i hword
      split at h
      · cases h
      · rename_i hrest
        cases h
        rcases ih hrest with hold | hnew
        · rcases mem_of_internWord hword hold with hold | hnew
          · exact .inl hold
          · exact .inr (by simp [hnew])
        · exact .inr (List.mem_cons_of_mem _ hnew)

/-- An item adds no entry but those of its spellings. -/
theorem mem_of_internItem {item : Item} (h : internItem table item = .ok (ids, table'))
    {e : SpellingEntry} (he : e ∈ table'.entries) :
    e ∈ table.entries ∨ e.spelling ∈ item.spellings := by
  cases item with
  | word w =>
    simp only [internItem] at h
    split at h
    · cases h
    · rename_i hword
      cases h
      simpa [Item.spellings] using mem_of_internWord hword he
  | inclusion name =>
    simp only [internItem] at h
    split at h
    · cases h
    · rename_i hintern
      cases h
      simpa [Item.spellings] using SpellingTable.mem_of_intern hintern he
  | definition name body =>
    simp only [internItem] at h
    split at h
    · cases h
    · rename_i hintern
      split at h
      · cases h
      · rename_i hbody
        cases h
        rcases mem_of_internWords hbody he with hold | hnew
        · rcases SpellingTable.mem_of_intern hintern hold with hold | hnew
          · exact .inl hold
          · exact .inr (by simp [Item.spellings, hnew])
        · exact .inr (List.mem_cons_of_mem _ hnew)

theorem readFrom_solid {total : Nat} {text : Bytes}
    (h : readFrom total text table = .ok (ids, table'))
    (htable : ∀ e ∈ table.entries, Solid e.spelling) : ∀ e ∈ table'.entries, Solid e.spelling := by
  fun_induction readFrom total text table generalizing ids table' with
  | case1 => cases h
  | case2 =>
    cases h
    exact htable
  | case3 => cases h
  | case4 => cases h
  | case5 text table item rest hitem first table₁ hfirst more table₂ hmore ih =>
    cases h
    refine ih hmore ?_
    intro e he
    rcases mem_of_internItem hfirst he with hold | hnew
    · exact htable e hold
    · exact Item.solid_next? hitem _ hnew

/-- **No spelling of a source holds a blank.** -/
theorem read_solid {source : Bytes} {script : Script} (h : read source = .ok script) :
    ∀ e ∈ script.table.entries, Solid e.spelling :=
  readFrom_solid (readFrom_of_read h) (by simp [SpellingTable.empty])

end Script

/-! ## 3. Ids that can be spelled -/

/-- A reserved id that is the end of a definition or a keyword, or a hash: no other stands for a
text. -/
def TokenId.IsWord (id : TokenId) : Prop := id.isReserved → id = eol ∨ id.keyword?.isSome

theorem TokenId.isReserved_hash (spelling : Bytes) : (hash spelling).isReserved = false := by
  have hlarge : ∀ h : UInt32, firstHashed ≤ h ||| 0x80000000 := by
    intro h
    rw [UInt32.le_iff_toNat_le, UInt32.toNat_or]
    exact Nat.le_trans (by decide) Nat.right_le_or
  unfold hash isReserved
  dsimp only
  split
  · simpa using hlarge _
  · rename_i hle
    simpa using hle

theorem Vocabulary.keyword?_of_find? {spelling : Bytes} {id : TokenId}
    (h : find? spelling = some id) : id.keyword? = some spelling := by
  obtain ⟨i, hi, rfl⟩ := Option.map_eq_some_iff.mp h
  obtain ⟨hlt, heq, -⟩ := List.findIdx?_eq_some_iff_getElem.mp hi
  have hlength : spellings.length = 107 := by decide
  have hid : (UInt32.ofNat (i + 1)).toNat = i + 1 := by
    rw [UInt32.toNat_ofNat', Nat.mod_eq_of_lt (by omega)]
  simp only [TokenId.keyword?, hid]
  rw [List.getElem?_eq_getElem hlt, eq_of_beq heq]

theorem SpellingTable.isWord_of_intern {table table' : SpellingTable} {spelling : Bytes}
    {id : TokenId} (h : table.intern spelling = .ok (id, table')) : id.IsWord := by
  rcases intern_eq_ok h with ⟨hfind, -⟩ | ⟨-, rfl, -⟩
  · exact fun _ => .inr (by rw [Vocabulary.keyword?_of_find? hfind]; rfl)
  · simp [TokenId.IsWord, TokenId.isReserved_hash]

theorem TokenId.IsWord.deferred {id : TokenId} (h : id.IsWord) : id.deferred.IsWord := by
  unfold TokenId.deferred
  repeat' split
  · exact fun _ => .inr (by decide)
  · exact fun _ => .inr (by decide)
  · exact fun _ => .inr (by decide)
  · exact h

namespace Script

variable {table table' : SpellingTable} {ids : List TokenId}

theorem internWord_isWord {w : Word} {id : TokenId} (h : internWord table w = .ok (id, table')) :
    id.IsWord := by
  unfold internWord at h
  split at h
  · cases h
  · rename_i hintern
    cases h
    have hid := SpellingTable.isWord_of_intern hintern
    split
    · exact hid.deferred
    · exact hid

theorem internWords_isWord {words : List Word} (h : internWords table words = .ok (ids, table')) :
    ∀ id ∈ ids, id.IsWord := by
  induction words generalizing table ids with
  | nil =>
    cases h
    simp
  | cons w rest ih =>
    rw [internWords] at h
    split at h
    · cases h
    · rename_i hword
      split at h
      · cases h
      · rename_i hrest
        cases h
        exact List.forall_mem_cons.mpr ⟨internWord_isWord hword, ih hrest⟩

theorem internItem_isWord {item : Item} (h : internItem table item = .ok (ids, table')) :
    ∀ id ∈ ids, id.IsWord := by
  cases item with
  | word w =>
    simp only [internItem] at h
    split at h
    · cases h
    · rename_i hword
      cases h
      simpa using internWord_isWord hword
  | inclusion name =>
    simp only [internItem] at h
    split at h
    · cases h
    · rename_i hintern
      cases h
      intro id hid
      simp only [List.mem_cons, List.not_mem_nil, or_false] at hid
      rcases hid with rfl | rfl
      · exact fun _ => .inr (by decide)
      · exact SpellingTable.isWord_of_intern hintern
  | definition name body =>
    simp only [internItem] at h
    split at h
    · cases h
    · rename_i hintern
      split at h
      · cases h
      · rename_i hbody
        cases h
        have hdefine : (defineId name).IsWord := by
          unfold defineId
          split <;> exact fun _ => .inr (by decide)
        intro id hid
        simp only [List.cons_append, List.mem_cons, List.mem_append, List.not_mem_nil, or_false]
          at hid
        rcases hid with rfl | rfl | hid | rfl
        · exact hdefine
        · exact SpellingTable.isWord_of_intern hintern
        · exact internWords_isWord hbody id hid
        · exact fun _ => .inl rfl

theorem readFrom_isWord {total : Nat} {text : Bytes}
    (h : readFrom total text table = .ok (ids, table')) : ∀ id ∈ ids, id.IsWord := by
  fun_induction readFrom total text table generalizing ids table' with
  | case1 => cases h
  | case2 =>
    cases h
    simp
  | case3 => cases h
  | case4 => cases h
  | case5 text table item rest hitem first table₁ hfirst more table₂ hmore ih =>
    cases h
    exact List.forall_mem_append.mpr ⟨internItem_isWord hfirst, ih hmore⟩

/-- **The table of a source spells its ids**, all but the ends of definitions. -/
theorem read_spelled {source : Bytes} {script : Script} (h : read source = .ok script) :
    ∀ id ∈ script.ids, id = TokenId.eol ∨ (script.table.spelling? id).isSome := by
  obtain ⟨hsorted, hknows⟩ := read_extends h
  have hword : ∀ id ∈ script.ids, id.IsWord := readFrom_isWord (readFrom_of_read h)
  intro id hid
  cases hreserved : id.isReserved with
  | true =>
    rw [SpellingTable.spelling?, if_pos hreserved]
    exact hword id hid hreserved
  | false =>
    rcases hknows id hid with hkeyword | ⟨e, he, rfl⟩
    · rw [hreserved] at hkeyword
      cases hkeyword
    · rw [SpellingTable.spelling?, hreserved, SpellingTable.lookup?,
        (SpellingTable.find?_eq_some_iff hsorted).mpr ⟨he, rfl⟩]
      exact .inr rfl

end Script

/-! ## 4. Sources item by item -/

theorem Word.all_of_none {text : Bytes} (h : Lexeme.next? (Lexeme.skipBlank text) = none) :
    Word.all text = [] := by
  rw [Word.all]
  split
  · rfl
  · simp_all

theorem Word.all_of_some {text lexeme rest : Bytes}
    (h : Lexeme.next? (Lexeme.skipBlank text) = some (lexeme, rest)) :
    Word.all text = Word.ofLexeme lexeme rest :: Word.all rest := by
  rw [Word.all]
  split
  · simp_all
  · rename_i hnext
    rw [h] at hnext
    cases hnext
    rfl

namespace Script

theorem readFrom_end {total : Nat} {text : Bytes} (h : Item.next? total text = .ok none)
    (table : SpellingTable) : readFrom total text table = .ok ([], table) := by
  rw [readFrom]
  split
  · simp_all
  · rfl
  · simp_all

theorem readFrom_item {total : Nat} {text rest : Bytes} {item : Item}
    {table table₁ table₂ : SpellingTable} {ids more : List TokenId}
    (hitem : Item.next? total text = .ok (some (item, rest)))
    (hfirst : internItem table item = .ok (ids, table₁))
    (hmore : readFrom total rest table₁ = .ok (more, table₂)) :
    readFrom total text table = .ok (ids ++ more, table₂) := by
  rw [readFrom]
  split
  · simp_all
  · simp_all
  · rename_i hnext
    rw [hitem] at hnext
    cases hnext
    simp only [hfirst, hmore]

/-- The line of a definition with a body of one word. -/
theorem readFrom_define_word {total : Nat} {text rest name lexeme : Bytes}
    {table table₁ table₂ : SpellingTable} {ids more : List TokenId}
    (hitem : Item.next? total text = .ok (some (.definition name (Word.all lexeme), rest)))
    (hlexeme : Lexeme.next? (Lexeme.skipBlank lexeme) = some (lexeme, []))
    (hfirst : internItem table (.definition name [Word.ofLexeme lexeme []]) = .ok (ids, table₁))
    (hmore : readFrom total rest table₁ = .ok (more, table₂)) :
    readFrom total text table = .ok (ids ++ more, table₂) := by
  have hend : Lexeme.next? (Lexeme.skipBlank []) = none := by
    rw [Lexeme.skipBlank]
    rfl
  rw [Word.all_of_some hlexeme, Word.all_of_none hend] at hitem
  exact readFrom_item hitem hfirst hmore

/-- A text that is read is read from its first item on. -/
theorem exists_of_readFrom {total : Nat} {text rest : Bytes} {item : Item}
    {table table' : SpellingTable} {ids : List TokenId}
    (hitem : Item.next? total text = .ok (some (item, rest)))
    (h : readFrom total text table = .ok (ids, table')) :
    ∃ own table₁ more, internItem table item = .ok (own, table₁) ∧
      readFrom total rest table₁ = .ok (more, table') ∧ ids = own ++ more := by
  rw [readFrom] at h
  split at h
  · cases h
  · simp_all
  · rename_i hnext
    rw [hitem] at hnext
    cases hnext
    split at h
    · cases h
    · rename_i own table₁ hintern
      split at h
      · cases h
      · rename_i more table₂ hmore
        cases h
        exact ⟨own, table₁, more, hintern, hmore, rfl⟩

end Script

/-! ## 5. Bins of sources -/

/-- A bin of a source is its script, with the name and the checksums. -/
theorem exists_script_of_ofSource {label source : Bytes} {bin : Bin}
    (h : Bin.ofSource label source = .ok bin) :
    ∃ script, Script.read source = .ok script ∧
      bin = ⟨label, Bin.checksumOfName label, Crc32.checksum source, script.table,
        script.tokens⟩ := by
  unfold Bin.ofSource at h
  split at h
  · cases h
  · rename_i script hread
    cases h
    exact ⟨script, hread, rfl⟩

/-- The tokens of a source text are literal. -/
theorem isLit_of_ofSource {label source : Bytes} {bin : Bin}
    (h : Bin.ofSource label source = .ok bin) : ∀ t ∈ bin.tokens, t.isLit := by
  obtain ⟨script, -, rfl⟩ := exists_script_of_ofSource h
  simp [Script.tokens, Token.isLit]

theorem isSorted_of_ofSource {label source : Bytes} {bin : Bin}
    (h : Bin.ofSource label source = .ok bin) : bin.table.isSorted := by
  obtain ⟨script, hread, rfl⟩ := exists_script_of_ofSource h
  exact (Script.read_extends hread).1

theorem Script.read_of_readFrom {source : Bytes} {total : Nat} {ids : List TokenId}
    {table : SpellingTable} (hsource : source.filter (· != 0x0D) = source ∧ source.length = total)
    (h : Script.readFrom total source .empty = .ok (ids, table)) :
    Script.read source = .ok ⟨ids, table⟩ := by
  obtain ⟨hfilter, rfl⟩ := hsource
  simp only [Script.read, hfilter, h]

/-- The bin of a source text that is read. -/
theorem ofSource_of_readFrom (label : Bytes) {source : Bytes} {total : Nat} {ids : List TokenId}
    {table : SpellingTable} (hsource : source.filter (· != 0x0D) = source ∧ source.length = total)
    (h : Script.readFrom total source .empty = .ok (ids, table)) :
    Bin.ofSource label source
      = .ok ⟨label, Bin.checksumOfName label, Crc32.checksum source, table, ids.map .lit⟩ := by
  rw [Bin.ofSource, Script.read_of_readFrom hsource h]
  rfl

theorem exists_bin_of_readFrom (label : Bytes) {source : Bytes} {total : Nat} {ids : List TokenId}
    {table : SpellingTable} (hsource : source.filter (· != 0x0D) = source ∧ source.length = total)
    (h : Script.readFrom total source .empty = .ok (ids, table)) :
    ∃ bin, Bin.ofSource label source = .ok bin ∧ bin.tokens = ids.map .lit ∧ bin.table = table :=
  ⟨_, ofSource_of_readFrom label hsource h, rfl, rfl⟩

end EffectScript
