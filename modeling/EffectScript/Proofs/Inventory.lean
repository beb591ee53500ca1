import Mathlib
import EffectScript.Proofs.Resolution

/-!
# The table of a source is an inventory of its ids

A source is read by four readers: one for plain words, one for the names of files, one for the names
of macros and one for their bodies.  All of them put ids into one list and spellings into one table.
This module says that the two fit together: the table has an entry for each hashed id of the list
and for no other, each entry is the hash of a text that is no keyword, and the list is cut into
*segments* (`IsSegment`), one for each item.

What the table gains is followed reader by reader (`Gains`).  An entry is only ever made for an id
that is put into the list right then, so nothing has to be known of the list before.

Main statement: `Script.read_inventory`.
-/

namespace EffectScript

open Lexeme

/-! ## 1. What a table gains -/

/-- The entry is the hash of a text that is no keyword. -/
def SpellingEntry.IsGenuine (e : SpellingEntry) : Prop :=
  e.id = TokenId.hash e.spelling ∧ Vocabulary.find? e.spelling = none

/-- Every entry of the second table is one of the first, or a genuine one for an id of the list. -/
def SpellingTable.Gains (table : SpellingTable) (ids : List TokenId) (table' : SpellingTable) :
    Prop :=
  ∀ e ∈ table'.entries, e ∈ table.entries ∨ e.id ∈ ids ∧ e.IsGenuine

namespace SpellingTable.Gains

variable {table table₁ table₂ : SpellingTable} {ids more : List TokenId}

theorem refl (table : SpellingTable) (ids : List TokenId) : Gains table ids table :=
  fun _ he => .inl he

theorem mono (h : Gains table ids table₁) (hsub : ids ⊆ more) : Gains table more table₁ := by
  intro e he
  rcases h e he with hold | ⟨hid, hgenuine⟩
  · exact .inl hold
  · exact .inr ⟨hsub hid, hgenuine⟩

theorem trans (h : Gains table ids table₁) (h' : Gains table₁ more table₂) :
    Gains table (ids ++ more) table₂ := by
  intro e he
  rcases h' e he with hold | ⟨hid, hgenuine⟩
  · exact h.mono (List.subset_append_left _ _) e hold
  · exact .inr ⟨List.mem_append_right _ hid, hgenuine⟩

end SpellingTable.Gains

theorem SpellingTable.intern_gains {table table' : SpellingTable} {spelling : Bytes} {id : TokenId}
    (h : table.intern spelling = .ok (id, table')) : Gains table [id] table' := by
  rcases intern_eq_ok h with ⟨-, rfl⟩ | ⟨hfind, rfl, hinsert⟩
  · exact .refl _ _
  · intro e he
    rcases insert_eq_ok hinsert with ⟨_, -, -, rfl⟩ | ⟨-, rfl⟩
    · exact .inl he
    · simp only [List.mem_append, List.mem_cons] at he
      rcases he with he | rfl | he
      · exact .inl (List.mem_of_mem_take he)
      · exact .inr ⟨List.mem_singleton.mpr rfl, rfl, hfind⟩
      · exact .inl (List.mem_of_mem_drop he)

/-- Only the keywords of conditionals have another form for the second pass. -/
theorem TokenId.deferred_hash (spelling : Bytes) : (hash spelling).deferred = hash spelling := by
  have hne : ∀ id : TokenId, id.isReserved → hash spelling ≠ id := by
    rintro id hid rfl
    rw [isReserved_hash] at hid
    cases hid
  rw [deferred, if_neg (hne _ rfl), if_neg (hne _ rfl), if_neg (hne _ rfl)]

namespace Script

variable {table table' : SpellingTable} {ids : List TokenId}

theorem internWord_gains {w : Word} {id : TokenId} (h : internWord table w = .ok (id, table')) :
    table.Gains [id] table' := by
  unfold internWord at h
  split at h
  · cases h
  · rename_i id₀ table₀ hintern
    cases h
    rcases SpellingTable.intern_eq_ok hintern with ⟨-, rfl⟩ | ⟨-, rfl, -⟩
    · exact .refl _ _
    · rw [TokenId.deferred_hash, ite_self]
      exact SpellingTable.intern_gains hintern

theorem internWords_gains {words : List Word} (h : internWords table words = .ok (ids, table')) :
    table.Gains ids table' := by
  induction words generalizing table ids with
  | nil =>
    cases h
    exact .refl _ _
  | cons w rest ih =>
    rw [internWords] at h
    split at h
    · cases h
    · rename_i hword
      split at h
      · cases h
      · rename_i hrest
        cases h
        exact (internWord_gains hword).trans (ih hrest)

/-- **An item adds entries for its own ids only.** -/
theorem internItem_gains {item : Item} (h : internItem table item = .ok (ids, table')) :
    table.Gains ids table' := by
  rcases item with w | name | ⟨name, body⟩
  · simp only [internItem] at h
    split at h
    · cases h
    · rename_i hword
      cases h
      exact internWord_gains hword
  · simp only [internItem] at h
    split at h
    · cases h
    · rename_i hintern
      cases h
      exact (SpellingTable.intern_gains hintern).mono (by simp)
  · simp only [internItem] at h
    split at h
    · cases h
    · rename_i hintern
      split at h
      · cases h
      · rename_i hbody
        cases h
        have hgains := (SpellingTable.intern_gains hintern).trans (internWords_gains hbody)
        refine hgains.mono ?_
        intro id hid
        simp only [List.singleton_append, List.mem_cons] at hid
        simp only [List.cons_append, List.mem_cons, List.mem_append]
        tauto

/-! ## 2. Segments -/

/-- The ids of one item: a word, an inclusion with the name of its file, or a definition with the
name of its macro, the body and the end of it. -/
inductive IsSegment : List TokenId → Prop
  | word {id : TokenId} (hend : id ≠ TokenId.eol) (hinclude : id ≠ TokenId.includeFile)
      (hdefine : id ≠ TokenId.define) (hlate : id ≠ TokenId.defineLate) : IsSegment [id]
  | inclusion (name : TokenId) : IsSegment [TokenId.includeFile, name]
  | definition {directive : TokenId} (name : TokenId) {body : List TokenId}
      (hdirective : directive = TokenId.define ∨ directive = TokenId.defineLate)
      (hbody : ∀ id ∈ body, id ≠ TokenId.eol) :
      IsSegment (directive :: name :: body ++ [TokenId.eol])

/-- A text has the id of a keyword only if it is the keyword. -/
theorem eq_keyword_of_intern {spelling : Bytes} {id : TokenId} (hid : id.isReserved)
    (h : table.intern spelling = .ok (id, table')) : id.keyword? = some spelling := by
  rcases SpellingTable.intern_eq_ok h with ⟨hfind, -⟩ | ⟨-, rfl, -⟩
  · exact Vocabulary.keyword?_of_find? hfind
  · rw [TokenId.isReserved_hash] at hid
    cases hid

theorem deferred_ne {id other : TokenId} (h : id ≠ other) (hother : other < TokenId.ifLate) :
    id.deferred ≠ other := by
  have hlate : TokenId.ifLate ≠ other ∧ TokenId.ifdefLate ≠ other ∧ TokenId.ifndefLate ≠ other := by
    refine ⟨?_, ?_, ?_⟩
    · rintro rfl
      exact absurd hother (by decide)
    · rintro rfl
      exact absurd hother (by decide)
    · rintro rfl
      exact absurd hother (by decide)
  unfold TokenId.deferred
  repeat' split
  · exact hlate.1
  · exact hlate.2.1
  · exact hlate.2.2
  · exact h

/-- A word that starts neither an inclusion nor a definition is a segment. -/
theorem internWord_segment {w : Word} {id : TokenId} (h : internWord table w = .ok (id, table'))
    (hinclude : w.spelling ≠ includeWord) (hdefine : w.spelling ≠ defineWord) : IsSegment [id] := by
  have hend := internWord_ne_eol h
  unfold internWord at h
  split at h
  · cases h
  · rename_i id₀ table₀ hintern
    -- None of the ids that start another segment has a spelling but the two words.
    have hother : ∀ other : TokenId, other.isReserved → other < TokenId.ifLate →
        other.keyword? = some includeWord ∨ other.keyword? = some defineWord →
        (if w.late then id₀.deferred else id₀) ≠ other := by
      intro other hreserved hless hspelled
      have hne : id₀ ≠ other := by
        rintro rfl
        rw [eq_keyword_of_intern hreserved hintern] at hspelled
        rcases hspelled with hspelled | hspelled
        · exact hinclude (Option.some.inj hspelled)
        · exact hdefine (Option.some.inj hspelled)
      split
      · exact deferred_ne hne hless
      · exact hne
    cases h
    exact .word hend (hother _ rfl (by decide) (.inl (by decide)))
      (hother _ rfl (by decide) (.inr (by decide))) (hother _ rfl (by decide) (.inr (by decide)))

theorem internWords_ne_eol {words : List Word} (h : internWords table words = .ok (ids, table')) :
    ∀ id ∈ ids, id ≠ TokenId.eol := by
  induction words generalizing table ids with
  | nil =>
    cases h
    simp
  | cons w rest ih =>
    rw [internWords] at h
    split at h
    · cases h
    · rename_i hword
      split at h
      · cases h
      · rename_i hrest
        cases h
        exact List.forall_mem_cons.mpr ⟨internWord_ne_eol hword, ih hrest⟩

end Script

/-- A word that is read is the next lexeme, and none that starts an item of another kind. -/
theorem Item.next?_eq_word {total : Nat} {text rest : Bytes} {w : Word}
    (h : Item.next? total text = .ok (some (.word w, rest))) :
    Lexeme.next? (skipBlank text) = some (w.spelling, rest) ∧ w = Word.ofLexeme w.spelling rest ∧
      w.spelling ≠ includeWord ∧ w.spelling ≠ defineWord := by
  unfold Item.next? at h
  split at h
  · cases h
  · rename_i lexeme tail hlexeme
    obtain ⟨pair, hitem, hpair⟩ : ∃ pair, Item.ofLexeme total lexeme tail = .ok pair ∧
        pair = (.word w, rest) := by
      cases hitem : Item.ofLexeme total lexeme tail with
      | error c =>
        rw [hitem] at h
        cases h
      | ok pair =>
        rw [hitem] at h
        cases h
        exact ⟨_, rfl, rfl⟩
    subst hpair
    unfold Item.ofLexeme at hitem
    split at hitem
    · cases hname : includeName total tail <;> rw [hname] at hitem <;> cases hitem
    · rename_i hinclude
      split at hitem
      · simp only [definitionItem] at hitem
        split at hitem <;> cases hitem
      · rename_i hdefine
        cases hitem
        exact ⟨hlexeme, rfl, hinclude, hdefine⟩

namespace Script

variable {table table' : SpellingTable} {ids : List TokenId}

/-- **The ids of an item are a segment.** -/
theorem internItem_segment {total : Nat} {text rest : Bytes} {item : Item}
    (hitem : Item.next? total text = .ok (some (item, rest)))
    (h : internItem table item = .ok (ids, table')) : IsSegment ids := by
  rcases item with w | name | ⟨name, body⟩
  · obtain ⟨-, -, hinclude, hdefine⟩ := Item.next?_eq_word hitem
    simp only [internItem] at h
    split at h
    · cases h
    · rename_i hword
      cases h
      exact internWord_segment hword hinclude hdefine
  · simp only [internItem] at h
    split at h
    · cases h
    · cases h
      exact .inclusion _
  · simp only [internItem] at h
    split at h
    · cases h
    · split at h
      · cases h
      · rename_i hbody
        cases h
        refine .definition _ ?_ (internWords_ne_eol hbody)
        unfold defineId
        split
        · exact .inr rfl
        · exact .inl rfl

/-! ## 3. A whole source -/

theorem readFrom_gains {total : Nat} {text : Bytes}
    (h : readFrom total text table = .ok (ids, table')) : table.Gains ids table' := by
  fun_induction readFrom total text table generalizing ids table' with
  | case1 => cases h
  | case2 =>
    cases h
    exact .refl _ _
  | case3 => cases h
  | case4 => cases h
  | case5 text table item rest hitem first table₁ hfirst more table₂ hmore ih =>
    cases h
    exact (internItem_gains hfirst).trans (ih hmore)

theorem readFrom_segments {total : Nat} {text : Bytes}
    (h : readFrom total text table = .ok (ids, table')) :
    ∃ segments : List (List TokenId), ids = segments.flatten ∧ ∀ s ∈ segments, IsSegment s := by
  fun_induction readFrom total text table generalizing ids table' with
  | case1 => cases h
  | case2 =>
    cases h
    exact ⟨[], rfl, by simp⟩
  | case3 => cases h
  | case4 => cases h
  | case5 text table item rest hitem first table₁ hfirst more table₂ hmore ih =>
    cases h
    obtain ⟨segments, rfl, hsegments⟩ := ih hmore
    exact ⟨first :: segments, rfl,
      List.forall_mem_cons.mpr ⟨internItem_segment hitem hfirst, hsegments⟩⟩

/-- **The table of a source is an inventory of its ids.**  The tokens are literal and the table
ascends.  It has an entry for a hashed id exactly if the id occurs; every entry is the hash of a
text without blanks that is no keyword.  A reserved id is a keyword or the end of a definition, and
the ids are those of one item after the other. -/
theorem read_inventory {source : Bytes} {script : Script} (h : read source = .ok script) :
    (∀ t ∈ script.tokens, t.isLit) ∧
      script.table.entries.Pairwise (fun a b => a.id < b.id) ∧
      (∀ id, (∃ e ∈ script.table.entries, e.id = id) ↔ id ∈ script.ids ∧ id.isReserved = false) ∧
      (∀ e ∈ script.table.entries, e.id = TokenId.hash e.spelling ∧
        Vocabulary.find? e.spelling = none ∧ ∀ c ∈ e.spelling, 0x20 < c) ∧
      (∀ id ∈ script.ids, id.isReserved → id = TokenId.eol ∨ id.keyword?.isSome) ∧
      ∃ segments : List (List TokenId),
        script.ids = segments.flatten ∧ ∀ s ∈ segments, IsSegment s := by
  have hfrom := readFrom_of_read h
  obtain ⟨hsorted, hknows⟩ := read_extends h
  have hgains : ∀ e ∈ script.table.entries, e.id ∈ script.ids ∧ e.IsGenuine := by
    intro e he
    rcases readFrom_gains hfrom e he with hold | hnew
    · cases hold
    · exact hnew
  refine ⟨by simp [tokens, Token.isLit], (SpellingTable.ascending_iff _).mp hsorted, ?_, ?_,
    readFrom_isWord hfrom, readFrom_segments hfrom⟩
  · intro id
    constructor
    · rintro ⟨e, he, rfl⟩
      obtain ⟨hid, hhash, -⟩ := hgains e he
      refine ⟨hid, ?_⟩
      rw [hhash]
      exact TokenId.isReserved_hash _
    · rintro ⟨hid, hreserved⟩
      rcases hknows id hid with hkeyword | hentry
      · rw [hreserved] at hkeyword
        cases hkeyword
      · exact hentry
  · intro e he
    obtain ⟨-, hhash, hfind⟩ := hgains e he
    refine ⟨hhash, hfind, fun c hc => ?_⟩
    have hsolid : isBlank c = false := read_solid h e he c hc
    simpa [isBlank] using hsolid

theorem readFrom_define_b : readFrom 25 (Bytes.ofString "\n#define b 0") ⟨[⟨0x80000000, []⟩]⟩
    = .ok ([TokenId.define, 1908338681, TokenId.zero, TokenId.eol] ++ [],
        ⟨[⟨1908338681, [0x62]⟩, ⟨0x80000000, []⟩]⟩) := by
  have hitem : Item.next? 25 (Bytes.ofString "\n#define b 0")
      = .ok (some (.definition [0x62] (Word.all [0x30]), [])) := by cbv
  exact readFrom_define_word hitem (by cbv) (by cbv) (readFrom_end (by cbv) _)

/-- A file whose name is all extension, so that the empty text has an entry, and then a macro. -/
theorem read_inventory_nameless :
    let script : Script := ⟨[TokenId.includeFile, 0x80000000, TokenId.define, 1908338681,
      TokenId.zero, TokenId.eol], ⟨[⟨1908338681, [0x62]⟩, ⟨0x80000000, []⟩]⟩⟩
    read (Bytes.ofString "#include \".x\"\n#define b 0") = .ok script ∧
      (∀ id, (∃ e ∈ script.table.entries, e.id = id) ↔ id ∈ script.ids ∧ id.isReserved = false) ∧
      (∀ e ∈ script.table.entries, e.id = TokenId.hash e.spelling ∧
        Vocabulary.find? e.spelling = none ∧ ∀ c ∈ e.spelling, 0x20 < c) ∧
      ∃ segments : List (List TokenId),
        script.ids = segments.flatten ∧ ∀ s ∈ segments, IsSegment s := by
  intro script
  have hitem : Item.next? 25 (Bytes.ofString "#include \".x\"\n#define b 0")
      = .ok (some (.inclusion [], Bytes.ofString "\n#define b 0")) := by cbv
  have hfrom : readFrom 25 (Bytes.ofString "#include \".x\"\n#define b 0") .empty
      = .ok ([TokenId.includeFile, 0x80000000] ++ _, script.table) :=
    readFrom_item hitem (by cbv) readFrom_define_b
  have hread : read (Bytes.ofString "#include \".x\"\n#define b 0") = .ok script :=
    read_of_readFrom ⟨by decide, rfl⟩ hfrom
  obtain ⟨-, -, hids, hentries, -, hsegments⟩ := read_inventory hread
  exact ⟨hread, hids, hentries, hsegments⟩

end Script

end EffectScript
