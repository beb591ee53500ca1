import EffectScript.Conditional.Preprocessor

/-!
# Spelling tables in order

Looking an id up is a bisection, so on a table that is in order it finds the entry of that id
wherever it is (`find?_eq`).  All operations keep the order: inserting, merging, and reading a
source, which also loses no spelling that it met.

Of two tables in order, merging makes one that has the entry of the second for every id of both
(`find?_merge`).  So two tables that spell an id alike still do behind a third.

Main statements: `find?_merge`, `isSorted_merge`, `spelling?_merge_congr` and `Script.read_extends`.
-/

namespace EffectScript

variable {σ : Type}

/-! ## 1. Bisection -/

/-- **Bisection finds the first place** from which on a property holds. -/
theorem bisect_le_iff {p : Nat → Bool} (hmono : ∀ i j, i ≤ j → p i → p j) {low high : Nat}
    (hle : low ≤ high) (hlow : ∀ i < low, p i = false) (hhigh : p high) (i : Nat) :
    bisect p low high ≤ i ↔ p i := by
  fun_induction bisect p low high with
  | case1 low high hlt middle hmiddle ih => exact ih (by omega) hlow hmiddle
  | case2 low high hlt middle hmiddle ih =>
    refine ih (by omega) (fun j hj => ?_) hhigh
    cases hp : p j with
    | false => rfl
    | true => exact absurd (hmono j middle (by omega) hp) hmiddle
  | case3 low high hlt =>
    obtain rfl : low = high := by omega
    constructor
    · exact fun hi => hmono low i hi hhigh
    · refine fun hi => Nat.le_of_not_lt fun hbefore => ?_
      rw [hlow i hbefore] at hi
      cases hi

/-! ## 2. Tables in order -/

namespace SpellingTable

/-- The entries ascend strictly. -/
theorem ascending_iff (entries : List SpellingEntry) :
    ascending entries ↔ entries.Pairwise fun a b => a.id < b.id := by
  fun_induction ascending entries with
  | case1 => simp
  | case2 => simp
  | case3 a b rest ih =>
    rw [Bool.and_eq_true, ih, decide_eq_true_eq, List.pairwise_cons (l := b :: rest)]
    constructor
    · rintro ⟨hab, hrest⟩
      refine ⟨fun c hc => ?_, hrest⟩
      rcases List.mem_cons.mp hc with rfl | hc
      · exact hab
      · exact UInt32.lt_trans hab (List.rel_of_pairwise_cons hrest hc)
    · rintro ⟨hall, hrest⟩
      exact ⟨hall b List.mem_cons_self, hrest⟩

/-- On a table in order, the place of an id is the first whose entry is not before it. -/
theorem position_le_iff {table : SpellingTable} (h : table.isSorted) (id : TokenId) (i : Nat) :
    table.position id ≤ i ↔ ∀ e, table.entries[i]? = some e → id ≤ e.id := by
  have hpairs := (ascending_iff table.entries).mp h
  let p : Nat → Bool := fun i => (table.entries[i]?).all fun e => decide (id ≤ e.id)
  have hposition : table.position id = bisect p 0 table.entries.length := by
    unfold position
    congr 1
    funext i
    simp only [p]
    cases table.entries[i]? <;> rfl
  have hp : ∀ i, p i ↔ ∀ e, table.entries[i]? = some e → id ≤ e.id := by
    intro i
    simp only [p]
    cases table.entries[i]? <;> simp
  have hmono : ∀ i j, i ≤ j → p i → p j := by
    intro i j hij hi
    rw [hp] at hi ⊢
    intro e he
    obtain ⟨hj, rfl⟩ := List.getElem?_eq_some_iff.mp he
    have hfirst : id ≤ (table.entries[i]).id :=
      hi _ (List.getElem?_eq_getElem (Nat.lt_of_le_of_lt hij hj))
    rcases Nat.eq_or_lt_of_le hij with rfl | hlt
    · exact hfirst
    · exact UInt32.le_of_lt (UInt32.lt_of_le_of_lt hfirst
        (List.pairwise_iff_getElem.mp hpairs i j _ hj hlt))
  have hend : p table.entries.length := by
    rw [hp]
    intro e he
    rw [List.getElem?_eq_none (Nat.le_refl _)] at he
    cases he
  rw [← hp, hposition]
  exact bisect_le_iff hmono (Nat.zero_le _) (fun i hi => absurd hi (Nat.not_lt_zero i)) hend i

theorem find?_eq_some_iff {table : SpellingTable} (h : table.isSorted) {id : TokenId}
    {e : SpellingEntry} : table.find? id = some e ↔ e ∈ table.entries ∧ e.id = id := by
  have hpairs := (ascending_iff table.entries).mp h
  constructor
  · intro hfind
    unfold find? at hfind
    split at hfind
    · rename_i f hf
      split at hfind
      · rename_i hid
        cases hfind
        exact ⟨List.mem_of_getElem? hf, hid⟩
      · cases hfind
    · cases hfind
  · rintro ⟨hmem, rfl⟩
    obtain ⟨j, hj, rfl⟩ := List.getElem_of_mem hmem
    have hle : table.position (table.entries[j]).id ≤ j := by
      rw [position_le_iff h]
      intro f hf
      rw [List.getElem?_eq_getElem hj] at hf
      cases hf
      exact UInt32.le_refl _
    have hk : table.position (table.entries[j]).id < table.entries.length :=
      Nat.lt_of_le_of_lt hle hj
    have hnot := (position_le_iff h _ _).mp (Nat.le_refl _) _ (List.getElem?_eq_getElem hk)
    have hsame : table.position (table.entries[j]).id = j := by
      refine Nat.le_antisymm hle (Nat.le_of_not_lt fun hlt => ?_)
      exact UInt32.lt_irrefl _ (UInt32.lt_of_le_of_lt hnot
        (List.pairwise_iff_getElem.mp hpairs _ _ hk hj hlt))
    unfold find?
    rw [hsame, List.getElem?_eq_getElem hj]
    simp

/-- In a list in order, an id has one entry at most. -/
theorem find?_id_eq_some_iff {entries : List SpellingEntry}
    (h : entries.Pairwise fun a b => a.id < b.id) {id : TokenId} {e : SpellingEntry} :
    entries.find? (·.id == id) = some e ↔ e ∈ entries ∧ e.id = id := by
  constructor
  · intro hfind
    exact ⟨List.mem_of_find?_eq_some hfind, by simpa using List.find?_some hfind⟩
  · rintro ⟨hmem, rfl⟩
    induction entries with
    | nil => cases hmem
    | cons a rest ih =>
      obtain ⟨hall, hrest⟩ := List.pairwise_cons.mp h
      rcases List.mem_cons.mp hmem with rfl | hmem
      · simp
      · have hne : (a.id == e.id) = false := by
          rw [beq_eq_false_iff_ne]
          intro heq
          exact UInt32.lt_irrefl _ (heq ▸ hall e hmem)
        rw [List.find?_cons, hne]
        exact ih hrest hmem

/-- **Looking an id up finds its entry**, wherever it is. -/
theorem find?_eq {table : SpellingTable} (h : table.isSorted) (id : TokenId) :
    table.find? id = table.entries.find? (·.id == id) := by
  refine Option.ext fun e => ?_
  rw [find?_eq_some_iff h, find?_id_eq_some_iff ((ascending_iff table.entries).mp h)]

/-- An insertion finds the spelling there, or puts it at its place. -/
theorem insert_eq_ok {table table' : SpellingTable} {id : TokenId} {spelling : Bytes}
    (h : table.insert id spelling = .ok table') :
    (∃ e, table.find? id = some e ∧ e.spelling = spelling ∧ table' = table) ∨
      table.find? id = none ∧ table' = ⟨table.entries.take (table.position id) ++
        ⟨id, spelling⟩ :: table.entries.drop (table.position id)⟩ := by
  unfold insert at h
  split at h
  · rename_i e hfind
    split at h
    · rename_i hsame
      cases h
      exact .inl ⟨e, hfind, hsame, rfl⟩
    · cases h
  · rename_i hnone
    cases h
    exact .inr ⟨hnone, rfl⟩

/-- A spelling is that of a keyword, or it is inserted for its hash. -/
theorem intern_eq_ok {table table' : SpellingTable} {id : TokenId} {spelling : Bytes}
    (h : table.intern spelling = .ok (id, table')) :
    (Vocabulary.find? spelling = some id ∧ table' = table) ∨
      Vocabulary.find? spelling = none ∧ id = TokenId.hash spelling ∧
        table.insert (TokenId.hash spelling) spelling = .ok table' := by
  unfold intern at h
  dsimp only at h
  split at h
  · rename_i hfind
    cases h
    exact .inl ⟨hfind, rfl⟩
  · rename_i hnone
    cases hinsert : table.insert (TokenId.hash spelling) spelling with
    | error c =>
      rw [hinsert] at h
      cases h
    | ok inserted =>
      rw [hinsert] at h
      cases h
      exact .inr ⟨hnone, rfl, rfl⟩

/-- Inserting keeps the order. -/
theorem isSorted_insert {table table' : SpellingTable} (h : table.isSorted) {id : TokenId}
    {spelling : Bytes} (hinsert : table.insert id spelling = .ok table') : table'.isSorted := by
  have hpairs := (ascending_iff table.entries).mp h
  rcases insert_eq_ok hinsert with ⟨_, -, -, rfl⟩ | ⟨hnone, rfl⟩
  · exact h
  · have hbefore : ∀ e ∈ table.entries.take (table.position id), e.id < id := by
      intro e he
      obtain ⟨i, hi, rfl⟩ := List.mem_take_iff_getElem.mp he
      refine UInt32.not_le.mp fun hle => ?_
      have hplace : table.position id ≤ i := by
        rw [position_le_iff h]
        intro f hf
        rw [List.getElem?_eq_getElem (by omega)] at hf
        cases hf
        exact hle
      omega
    have hbehind : ∀ e ∈ table.entries.drop (table.position id), id < e.id := by
      intro e he
      obtain ⟨i, hi, rfl⟩ := List.mem_drop_iff_getElem.mp he
      refine UInt32.lt_of_le_of_ne ?_ fun heq => ?_
      · exact (position_le_iff h id _).mp (Nat.le_add_right _ i) _ (List.getElem?_eq_getElem _)
      · have hsome := (find?_eq_some_iff h).mpr ⟨List.getElem_mem _, heq.symm⟩
        rw [hnone] at hsome
        cases hsome
    rw [isSorted, ascending_iff, List.pairwise_append]
    refine ⟨hpairs.sublist (List.take_sublist _ _),
      List.pairwise_cons.mpr ⟨hbehind, hpairs.sublist (List.drop_sublist _ _)⟩, ?_⟩
    intro a ha b hb
    rcases List.mem_cons.mp hb with rfl | hb
    · exact hbefore a ha
    · exact UInt32.lt_trans (hbefore a ha) (hbehind b hb)

/-! ## 3. Merging -/

/-- Dropping entries that follow one with the same id hides no first entry. -/
theorem find?_collapse (entries : List SpellingEntry) (id : TokenId) :
    (collapse entries).find? (·.id == id) = entries.find? (·.id == id) := by
  fun_induction collapse entries with
  | case1 => rfl
  | case2 e => rfl
  | case3 a b rest hsame ih =>
    rw [ih, List.find?_cons, List.find?_cons, List.find?_cons, hsame]
    cases b.id == id <;> rfl
  | case4 a b rest hne ih =>
    rw [List.find?_cons, ih]
    rfl

theorem mem_collapse {entries : List SpellingEntry} {e : SpellingEntry} (h : e ∈ collapse entries) :
    e ∈ entries := by
  fun_induction collapse entries with
  | case1 => exact h
  | case2 e' => exact h
  | case3 a b rest hsame ih =>
    rcases List.mem_cons.mp (ih h) with rfl | hmem
    · exact List.mem_cons_self
    · exact List.mem_cons_of_mem _ (List.mem_cons_of_mem _ hmem)
  | case4 a b rest hne ih =>
    rcases List.mem_cons.mp h with rfl | hmem
    · exact List.mem_cons_self
    · exact List.mem_cons_of_mem _ (ih hmem)

/-- What ascends ascends strictly behind it. -/
theorem pairwise_collapse {entries : List SpellingEntry}
    (h : entries.Pairwise fun a b => a.id ≤ b.id) :
    (collapse entries).Pairwise fun a b => a.id < b.id := by
  fun_induction collapse entries with
  | case1 => exact .nil
  | case2 e => exact List.pairwise_singleton _ _
  | case3 a b rest hsame ih =>
    refine ih (h.sublist ?_)
    exact List.Sublist.cons_cons a (List.sublist_cons_self b rest)
  | case4 a b rest hne ih =>
    obtain ⟨hall, hrest⟩ := List.pairwise_cons.mp h
    refine List.pairwise_cons.mpr ⟨fun c hc => ?_, ih hrest⟩
    have hab : a.id < b.id := UInt32.lt_of_le_of_ne (hall b List.mem_cons_self) hne
    rcases List.mem_cons.mp (mem_collapse hc) with rfl | hmem
    · exact hab
    · exact UInt32.lt_of_lt_of_le hab (List.rel_of_pairwise_cons hrest hmem)

/-- The merge of two lists, the second first where ids are equal. -/
def mergeEntries (xs ys : List SpellingEntry) : List SpellingEntry :=
  xs.merge ys fun a b => a.id < b.id

theorem mem_mergeEntries {xs ys : List SpellingEntry} {e : SpellingEntry} :
    e ∈ mergeEntries xs ys ↔ e ∈ xs ∨ e ∈ ys := List.mem_merge

theorem mergeEntries_cons (x y : SpellingEntry) (xs ys : List SpellingEntry) :
    mergeEntries (x :: xs) (y :: ys)
      = if x.id < y.id then x :: mergeEntries xs (y :: ys) else y :: mergeEntries (x :: xs) ys := by
  unfold mergeEntries
  rw [List.cons_merge_cons]
  simp only [decide_eq_true_eq]

theorem pairwise_mergeEntries {xs ys : List SpellingEntry}
    (hx : xs.Pairwise fun a b => a.id < b.id) (hy : ys.Pairwise fun a b => a.id < b.id) :
    (mergeEntries xs ys).Pairwise fun a b => a.id ≤ b.id := by
  induction xs generalizing ys with
  | nil =>
    rw [mergeEntries, List.nil_merge]
    exact hy.imp UInt32.le_of_lt
  | cons x xs ihx =>
    obtain ⟨hxall, hxs⟩ := List.pairwise_cons.mp hx
    induction ys with
    | nil =>
      rw [mergeEntries, List.merge_right]
      exact hx.imp UInt32.le_of_lt
    | cons y ys ihy =>
      obtain ⟨hyall, hys⟩ := List.pairwise_cons.mp hy
      rw [mergeEntries_cons]
      split
      · rename_i hlt
        refine List.pairwise_cons.mpr ⟨fun e he => ?_, ihx hxs hy⟩
        rcases mem_mergeEntries.mp he with he | he
        · exact UInt32.le_of_lt (hxall e he)
        · rcases List.mem_cons.mp he with rfl | he
          · exact UInt32.le_of_lt hlt
          · exact UInt32.le_of_lt (UInt32.lt_trans hlt (hyall e he))
      · rename_i hle
        have hyx := UInt32.not_lt.mp hle
        refine List.pairwise_cons.mpr ⟨fun e he => ?_, ihy hys⟩
        rcases mem_mergeEntries.mp he with he | he
        · rcases List.mem_cons.mp he with rfl | he
          · exact hyx
          · exact UInt32.le_trans hyx (UInt32.le_of_lt (hxall e he))
        · exact UInt32.le_of_lt (hyall e he)

/-- A list in order has no entry for an id before its first. -/
theorem find?_eq_none_of_lt {entries : List SpellingEntry} {id : TokenId}
    (h : ∀ e ∈ entries, id < e.id) : entries.find? (·.id == id) = none := by
  rw [List.find?_eq_none]
  intro e he heq
  have hlt := h e he
  rw [beq_iff_eq.mp heq] at hlt
  exact UInt32.lt_irrefl _ hlt

theorem find?_mergeEntries (xs : List SpellingEntry) {ys : List SpellingEntry}
    (hy : ys.Pairwise fun a b => a.id < b.id) (id : TokenId) :
    (mergeEntries xs ys).find? (·.id == id)
      = (ys.find? (·.id == id)).or (xs.find? (·.id == id)) := by
  induction xs generalizing ys with
  | nil => simp [mergeEntries]
  | cons x xs ihx =>
    induction ys with
    | nil => simp [mergeEntries]
    | cons y ys ihy =>
      obtain ⟨hyall, hys⟩ := List.pairwise_cons.mp hy
      rw [mergeEntries_cons]
      split
      · rename_i hlt
        by_cases hid : x.id = id
        · -- The entry is the first of all, so the second list has none.
          have hnone : (y :: ys).find? (·.id == id) = none := by
            refine find?_eq_none_of_lt fun e he => ?_
            rcases List.mem_cons.mp he with rfl | he
            · exact hid ▸ hlt
            · exact UInt32.lt_trans (hid ▸ hlt) (hyall e he)
          rw [hnone, List.find?_cons, List.find?_cons]
          simp [hid]
        · have hne : (x.id == id) = false := beq_false_of_ne hid
          rw [List.find?_cons, hne, List.find?_cons (a := x), hne]
          exact ihx hy
      · rw [List.find?_cons, ihy hys, List.find?_cons (a := y)]
        cases y.id == id <;> rfl

variable {a b : SpellingTable}

/-- **Merging keeps the order.** -/
theorem isSorted_merge (ha : a.isSorted) (hb : b.isSorted) : (a.merge b).isSorted := by
  rw [isSorted, ascending_iff] at ha hb ⊢
  exact pairwise_collapse (pairwise_mergeEntries ha hb)

/-- **In the merge, an id has the entry of the second table**, and without one that of the first. -/
theorem find?_merge (ha : a.isSorted) (hb : b.isSorted) (id : TokenId) :
    (a.merge b).find? id = (b.find? id).or (a.find? id) := by
  rw [find?_eq (isSorted_merge ha hb), find?_eq ha, find?_eq hb]
  exact (find?_collapse _ id).trans (find?_mergeEntries _ ((ascending_iff _).mp hb) id)

/-- An id needs no entry, or has one. -/
def Knows (table : SpellingTable) (id : TokenId) : Prop :=
  id.isReserved ∨ ∃ e ∈ table.entries, e.id = id

/-- A table grows by entries, among them those of some ids. -/
structure Extends (table : SpellingTable) (ids : List TokenId) (table' : SpellingTable) : Prop where
  isSorted : table.isSorted → table'.isSorted
  entries : table.entries ⊆ table'.entries
  knows : ∀ id ∈ ids, table'.Knows id

namespace Extends

variable {table table₁ table₂ : SpellingTable} {ids more : List TokenId} {id : TokenId}

theorem refl (table : SpellingTable) : Extends table [] table :=
  ⟨fun h => h, fun _ h => h, by simp⟩

theorem trans (h : Extends table ids table₁) (h' : Extends table₁ more table₂) :
    Extends table (ids ++ more) table₂ := by
  refine ⟨h'.isSorted ∘ h.isSorted, fun e he => h'.entries (h.entries he), fun id hid => ?_⟩
  rcases List.mem_append.mp hid with hid | hid
  · exact (h.knows id hid).imp_right fun ⟨e, he, heq⟩ => ⟨e, h'.entries he, heq⟩
  · exact h'.knows id hid

/-- Reserved ids are known to every table. -/
theorem of_reserved (h : Extends table ids table₁) (hreserved : ∀ id ∈ more, id.isReserved) :
    Extends table (ids ++ more) table₁ :=
  ⟨h.isSorted, h.entries, fun id hid =>
    (List.mem_append.mp hid).elim (h.knows id) fun hmore => .inl (hreserved id hmore)⟩

end Extends

end SpellingTable

theorem Vocabulary.isReserved_of_find? {spelling : Bytes} {id : TokenId}
    (h : find? spelling = some id) : id.isReserved := by
  obtain ⟨i, hi, rfl⟩ := Option.map_eq_some_iff.mp h
  have hlt : i < spellings.length := (List.findIdx?_eq_some_iff_getElem.mp hi).1
  have hlength : spellings.length = 107 := by decide
  rw [TokenId.isReserved, decide_eq_true_eq, UInt32.lt_iff_toNat_lt, UInt32.toNat_ofNat',
    Nat.mod_eq_of_lt (by omega)]
  have hbound : TokenId.firstHashed.toNat = 1024 := rfl
  omega

namespace SpellingTable

theorem insert_extends {table table' : SpellingTable} {id : TokenId} {spelling : Bytes}
    (h : table.insert id spelling = .ok table') : Extends table [id] table' := by
  have hsorted := fun hsorted => isSorted_insert hsorted h
  rcases insert_eq_ok h with ⟨e, hfind, -, rfl⟩ | ⟨-, rfl⟩
  · refine ⟨hsorted, fun _ he => he, List.forall_mem_singleton.mpr (.inr ?_)⟩
    unfold find? at hfind
    split at hfind
    · rename_i f hf
      split at hfind
      · rename_i hid
        exact ⟨f, List.mem_of_getElem? hf, hid⟩
      · cases hfind
    · cases hfind
  · refine ⟨hsorted, fun e he => ?_, List.forall_mem_singleton.mpr (.inr ?_)⟩
    · rw [← List.take_append_drop (table.position id) table.entries] at he
      rcases List.mem_append.mp he with he | he
      · exact List.mem_append_left _ he
      · exact List.mem_append_right _ (List.mem_cons_of_mem _ he)
    · exact ⟨_, List.mem_append_right _ List.mem_cons_self, rfl⟩

theorem intern_extends {table table' : SpellingTable} {spelling : Bytes} {id : TokenId}
    (h : table.intern spelling = .ok (id, table')) : Extends table [id] table' := by
  rcases intern_eq_ok h with ⟨hfind, rfl⟩ | ⟨-, rfl, hinsert⟩
  · exact (Extends.refl table').of_reserved
      (List.forall_mem_singleton.mpr (Vocabulary.isReserved_of_find? hfind))
  · exact insert_extends hinsert

end SpellingTable

theorem TokenId.deferred_cases (id : TokenId) : id.deferred.isReserved ∨ id.deferred = id := by
  unfold deferred
  split
  · exact .inl (by decide)
  · split
    · exact .inl (by decide)
    · split
      · exact .inl (by decide)
      · exact .inr rfl

namespace Script

open SpellingTable

variable {table table' : SpellingTable} {ids : List TokenId}

theorem internWord_extends {w : Word} {id : TokenId} (h : internWord table w = .ok (id, table')) :
    Extends table [id] table' := by
  unfold internWord at h
  split at h
  · cases h
  · rename_i id₀ table₀ hintern
    cases h
    have hextends := intern_extends hintern
    split
    · refine ⟨hextends.isSorted, hextends.entries, List.forall_mem_singleton.mpr ?_⟩
      rcases TokenId.deferred_cases id₀ with hreserved | hsame
      · exact .inl hreserved
      · rw [hsame]
        exact hextends.knows id₀ List.mem_cons_self
    · exact hextends

theorem internWords_extends {words : List Word} (h : internWords table words = .ok (ids, table')) :
    Extends table ids table' := by
  induction words generalizing table ids table' with
  | nil =>
    cases h
    exact .refl _
  | cons w rest ih =>
    rw [internWords] at h
    split at h
    · cases h
    · rename_i hword
      split at h
      · cases h
      · rename_i hrest
        cases h
        exact (internWord_extends hword).trans (ih hrest)

theorem internItem_extends {item : Item} (h : internItem table item = .ok (ids, table')) :
    Extends table ids table' := by
  cases item with
  | word w =>
    simp only [internItem] at h
    split at h
    · cases h
    · rename_i hword
      cases h
      exact internWord_extends hword
  | inclusion name =>
    simp only [internItem] at h
    split at h
    · cases h
    · rename_i hintern
      cases h
      have hinclude : ∀ id ∈ [TokenId.includeFile], id.isReserved :=
        List.forall_mem_singleton.mpr rfl
      exact ((Extends.refl table).of_reserved hinclude).trans (intern_extends hintern)
  | definition name body =>
    simp only [internItem] at h
    split at h
    · cases h
    · rename_i hintern
      split at h
      · cases h
      · rename_i hbody
        cases h
        have hdefine : ∀ id ∈ [defineId name], id.isReserved := by
          refine List.forall_mem_singleton.mpr ?_
          unfold defineId
          split <;> rfl
        have hend : ∀ id ∈ [TokenId.eol], id.isReserved := List.forall_mem_singleton.mpr rfl
        exact (((Extends.refl table).of_reserved hdefine).trans
          ((intern_extends hintern).trans (internWords_extends hbody))).of_reserved hend

theorem readFrom_extends {total : Nat} {text : Bytes}
    (h : readFrom total text table = .ok (ids, table')) : Extends table ids table' := by
  fun_induction readFrom total text table generalizing ids table' with
  | case1 => cases h
  | case2 =>
    cases h
    exact .refl _
  | case3 => cases h
  | case4 => cases h
  | case5 text table item rest hitem first table₁ hfirst more table₂ hmore ih =>
    cases h
    exact (internItem_extends hfirst).trans (ih hmore)

/-- The bytes of a source that are read. -/
def text (source : Bytes) : Bytes := source.filter (· != 0x0D)

theorem readFrom_of_read {source : Bytes} {script : Script} (h : read source = .ok script) :
    readFrom (text source).length (text source) .empty = .ok (script.ids, script.table) := by
  unfold read at h
  dsimp only at h
  split at h
  · cases h
  · rename_i hfrom
    cases h
    exact hfrom

/-- **The table of a source is in order and knows its ids.** -/
theorem read_extends {source : Bytes} {script : Script} (h : read source = .ok script) :
    script.table.isSorted ∧ ∀ id ∈ script.ids, script.table.Knows id := by
  have hextends := readFrom_extends (readFrom_of_read h)
  exact ⟨hextends.isSorted rfl, hextends.knows⟩

end Script

end EffectScript
