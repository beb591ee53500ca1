import EffectScript.Proofs.Coverage
import EffectScript.Proofs.StoredForm

/-!
# Spellings that share an id

Ids are checksums, so two words can have one id.  Reading a source refuses the second of them; but
words also meet when the tables of several files and seeds are merged, and there nothing is refused:
of two spellings of an id the one that comes in last stays.

The tables that meet when an effect is compiled are listed in the order in which it takes them in
(`Effect.TakesIn`).  The table of the effect has for every id what the last of them has that has
something for it (`SpellingTable.Sums`); so all spellings are kept exactly when no two tables spell
an id differently.

Main statements: `last_spelling_stays`, `colliding_spelling_lost`.
-/

namespace EffectScript

variable {σ : Type}

/-! ## 1. Tables made of tables -/

namespace SpellingTable

variable {a b : SpellingTable} {xs ys : List SpellingTable}

theorem lookup?_merge (ha : a.isSorted) (hb : b.isSorted) (id : TokenId) :
    (a.merge b).lookup? id = (b.lookup? id).or (a.lookup? id) := by
  unfold lookup?
  rw [find?_merge ha hb, Option.map_or]

/-- What an insertion leaves. -/
theorem lookup?_insert (ha : a.isSorted) {id : TokenId} {spelling : Bytes}
    (h : a.insert id spelling = .ok b) (other : TokenId) :
    b.lookup? other = if other = id then some spelling else a.lookup? other := by
  have hb := isSorted_insert ha h
  rcases insert_eq_ok h with ⟨e, hfound, rfl, rfl⟩ | ⟨hnone, rfl⟩
  · split
    · rename_i heq
      rw [heq, lookup?, hfound]
      rfl
    · rfl
  · -- The new entry stands between those before its place and those behind it.
    have hsplit := List.take_append_drop (a.position id) a.entries
    rw [find?_eq ha] at hnone
    rw [lookup?, lookup?, find?_eq hb, find?_eq ha]
    split
    · rename_i heq
      subst heq
      rw [← hsplit, List.find?_append, Option.or_eq_none_iff] at hnone
      simp [List.find?_append, hnone.1]
    · rename_i hne
      have hskip : ((id == other) : Bool) = false := beq_false_of_ne (Ne.symm hne)
      rw [List.find?_append, List.find?_cons, hskip, ← List.find?_append, hsplit]

theorem lookup?_singleton (id : TokenId) (spelling : Bytes) (other : TokenId) :
    (⟨[⟨id, spelling⟩]⟩ : SpellingTable).lookup? other
      = if other = id then some spelling else none := by
  rw [lookup?, find?_eq rfl]
  by_cases h : other = id
  · simp [h]
  · simp [h, Ne.symm h]

/-- The table that has a name only; a keyword needs no entry. -/
def ofName (name : Bytes) : SpellingTable :=
  match Vocabulary.find? name with
  | some _ => .empty
  | none => ⟨[⟨TokenId.hash name, name⟩]⟩

/-- The table has for every id what the last of some tables has for it that has something. -/
structure Sums (tables : List SpellingTable) (table : SpellingTable) : Prop where
  isSorted : table.isSorted
  lookup?_eq : ∀ id, table.lookup? id = tables.reverse.findSome? (·.lookup? id)

namespace Sums

theorem one (h : a.isSorted) : Sums [a] a := ⟨h, by simp⟩

theorem merge (ha : Sums xs a) (hb : Sums ys b) : Sums (xs ++ ys) (a.merge b) := by
  refine ⟨isSorted_merge ha.isSorted hb.isSorted, fun id => ?_⟩
  rw [lookup?_merge ha.isSorted hb.isSorted, ha.lookup?_eq, hb.lookup?_eq, List.reverse_append,
    List.findSome?_append]

theorem intern (ha : Sums xs a) {name : Bytes} {id : TokenId} (h : a.intern name = .ok (id, b)) :
    Sums (xs ++ [ofName name]) b := by
  refine ⟨(intern_extends h).isSorted ha.isSorted, fun other => ?_⟩
  rw [List.reverse_append, List.reverse_singleton, List.findSome?_append, ← ha.lookup?_eq,
    List.findSome?_singleton]
  rcases intern_eq_ok h with ⟨hkeyword, rfl⟩ | ⟨hword, -, hinsert⟩
  · rw [ofName, hkeyword]
    rfl
  · rw [lookup?_insert ha.isSorted hinsert, ofName, hword, lookup?_singleton]
    split <;> simp

/-- **Every spelling stays exactly if no two tables spell an id differently.** -/
theorem kept_iff (h : Sums xs a) :
    (∀ table ∈ xs, ∀ id spelling, table.lookup? id = some spelling → a.lookup? id = some spelling) ↔
      ∀ one ∈ xs, ∀ other ∈ xs, ∀ id spelling spelling', one.lookup? id = some spelling →
        other.lookup? id = some spelling' → spelling = spelling' := by
  constructor
  · intro hkept one hone other hother id spelling spelling' hspelling hspelling'
    have hfirst := hkept one hone id spelling hspelling
    rw [hkept other hother id spelling' hspelling'] at hfirst
    exact (Option.some.inj hfirst).symm
  · intro hsame table htable id spelling hspelling
    -- The last table that spells the id decides; it need not be this one, but it spells it alike.
    have hsome : (a.lookup? id).isSome := by
      rw [h.lookup?_eq, List.findSome?_isSome_iff]
      exact ⟨table, List.mem_reverse.mpr htable, by rw [hspelling]; rfl⟩
    obtain ⟨last, hlast⟩ := Option.isSome_iff_exists.mp hsome
    have hfrom := hlast
    rw [h.lookup?_eq] at hfrom
    obtain ⟨other, hother, hspelled⟩ := List.exists_of_findSome?_eq_some hfrom
    rw [hlast, hsame table htable other (List.mem_reverse.mp hother) id _ _ hspelling hspelled]

end Sums

end SpellingTable

/-! ## 2. The tables that come in during a pass -/

/-- The table that comes in by the next move: that of the file which is entered, if one is. -/
def Moment.arrival (around : Surroundings σ) (pass : Pass) (m : Moment σ) : Option SpellingTable :=
  match m.files with
  | ⟨path, base, index, first :: rest⟩ :: _ =>
    match step around pass path base index first rest m.state, around.resolver with
    | .enter _ _ name _ _, some resolver =>
      (resolver.resolve name m.state.source).answer.toOption.map (·.table)
    | _, _ => none
  | _ => none

/-- Moves, one after the other, and the tables that come in on the way. -/
inductive Gathers (around : Surroundings σ) (pass : Pass) :
    Moment σ → List SpellingTable → Moment σ → Prop
  | refl (a : Moment σ) : Gathers around pass a [] a
  | move {a b c : Moment σ} {events : List Event} {emitted : List Token}
      {tables : List SpellingTable}
      (hmove : Moves around pass a events emitted b) (hrest : Gathers around pass b tables c) :
      Gathers around pass a ((a.arrival around pass).toList ++ tables) c

theorem Runs.gathers {around : Surroundings σ} {pass : Pass} {a b : Moment σ} {story : List Event}
    {out : List Token} (h : Runs around pass a story out b) :
    ∃ tables, Gathers around pass a tables b := by
  induction h with
  | refl a => exact ⟨[], .refl a⟩
  | move hmove _ ih =>
    obtain ⟨tables, htables⟩ := ih
    exact ⟨_, .move hmove htables⟩

/-- A bin whose table is in order. -/
def Bin.InOrder (b : Bin) : Prop := b.table.isSorted

section Gathering

variable {lib : Library} {around : Surroundings Library} {pass : Pass} {a b : Moment Library}
  {before tables : List SpellingTable}

/-- A move adds the table that comes in by it. -/
theorem Moves.sums (hlib : lib.Gives Bin.InOrder)
    (haround : around.resolver = some Library.resolver)
    {events : List Event} {emitted : List Token} (h : Moves around pass a events emitted b)
    (hsource : lib.Becomes a.state.source) (ha : SpellingTable.Sums before a.state.table) :
    lib.Becomes b.state.source ∧
      SpellingTable.Sums (before ++ (a.arrival around pass).toList) b.state.table := by
  cases h with
  | next hstep =>
    have hdeed := step_deed hstep
    simp only [Moment.arrival, hstep]
    rw [hdeed.source_eq, hdeed.table_eq]
    exact ⟨hsource, by simpa using ha⟩
  | @enter _ _ _ _ _ _ _ _ name _ s _ hstep =>
    obtain ⟨token, after, resolver, included, rfl, rfl, rfl, rfl, hresolver, hanswer, rfl, rfl⟩ :=
      step_eq_enter hstep
    simp only [Moment.arrival, hstep, hresolver, hanswer, Except.toOption, Option.map_some,
      Option.toList_some]
    rw [haround] at hresolver
    cases hresolver
    obtain ⟨b, hfound, -, hspellings⟩ := exists_bin_of_resolve hanswer
    refine ⟨hsource.find name, ?_⟩
    have hb : b.table.isSorted := hlib s.source hsource name b hfound
    rw [hspellings]
    exact ha.merge (.one hb)
  | leave hend => exact ⟨hsource, by simpa [Moment.arrival] using ha⟩

theorem Gathers.sums (hlib : lib.Gives Bin.InOrder)
    (haround : around.resolver = some Library.resolver)
    (h : Gathers around pass a tables b) (hsource : lib.Becomes a.state.source)
    (ha : SpellingTable.Sums before a.state.table) :
    lib.Becomes b.state.source ∧ SpellingTable.Sums (before ++ tables) b.state.table := by
  induction h generalizing before with
  | refl a => exact ⟨hsource, by simpa using ha⟩
  | move hmove _ ih =>
    obtain ⟨hsource', ha'⟩ := hmove.sums hlib haround hsource ha
    rw [← List.append_assoc]
    exact ih hsource' ha'

end Gathering

/-! ## 3. The tables that meet in an effect -/

/-- The tables that come in with a seed: that of its name and that of its value. -/
def Seed.tables (seed : Seed) : List SpellingTable :=
  .ofName seed.name :: ((Script.read seed.value).toOption.map (·.table)).toList

/-- Seeds add their tables. -/
theorem Preprocessor.addSeeds_sums {p p' : Preprocessor σ} {seeds : List Seed}
    {before : List SpellingTable}
    (h : p.addSeeds seeds = .ok p') (hp : SpellingTable.Sums before p.seedTable) :
    SpellingTable.Sums (before ++ seeds.flatMap Seed.tables) p'.seedTable := by
  induction seeds generalizing p before with
  | nil =>
    cases h
    simpa using hp
  | cons seed seeds ih =>
    rw [addSeeds] at h
    split at h
    · cases h
    · rename_i p₁ hadd
      obtain ⟨script, id, table, hread, hintern, hp₁⟩ := addSeed_eq_ok hadd
      have hsums : SpellingTable.Sums (before ++ seed.tables) (table.merge script.table) := by
        have hmerged := (hp.intern hintern).merge (.one (Script.read_extends hread).1)
        simpa [Seed.tables, hread, Except.toOption] using hmerged
      rw [List.flatMap_cons, ← List.append_assoc]
      rcases hp₁ with rfl | rfl
      · exact ih h hsums
      · exact ih h hsums

/-- The tables that an effect takes in when it is compiled, one after the other: that of its bin,
those of the seeds and those of the files that the first pass enters, then those of the seeds again
and those of the files that the second pass enters. -/
def Effect.TakesIn (lib : Library) (platform : Option Platform) (name : Bytes)
    (runtime : Bytes → Option Int)
    (seeds : List Seed) (e : Effect) (tables : List SpellingTable) : Prop :=
  ∃ b p entered₁ entered₂ s₁ s₂, (lib.find name).answer = .ok b ∧
    Preprocessor.build platform runtime (some Library.resolver) seeds = .ok p ∧
    Gathers p.around .first (p.startMoment .first b.tokens b.table (lib.find name).library)
      entered₁ ⟨[], s₁⟩ ∧
    Gathers p.around .second ((p.leftBy s₁).startMoment .second e.first s₁.table s₁.source) entered₂
      ⟨[], s₂⟩ ∧
    tables = [b.table] ++ seeds.flatMap Seed.tables ++ entered₁ ++
      seeds.flatMap Seed.tables ++ entered₂

/-- **The last spelling of an id stays.**  Let the tables of the bins in memory be in order, as
reading and loading leave them.  When an effect compiles, its table has for every id what the last
table that it took in has, of those that have something for it.  So all spellings are kept exactly
if no two of these tables spell an id differently. -/
theorem last_spelling_stays {lib : Library} (hbins : ∀ entry ∈ lib.bins, entry.2.table.isSorted)
    (platform : Option Platform) (name : Bytes) (runtime : Bytes → Option Int) (seeds : List Seed)
    {e : Effect} (h : (Effect.compile lib platform name runtime seeds).answer = .ok e) :
    ∃ tables, e.TakesIn lib platform name runtime seeds tables ∧
      (∀ id, e.table.lookup? id = tables.reverse.findSome? (·.lookup? id)) ∧
      ((∀ table ∈ tables, ∀ id spelling, table.lookup? id = some spelling →
          e.table.lookup? id = some spelling) ↔
        ∀ one ∈ tables, ∀ other ∈ tables, ∀ id spelling spelling', one.lookup? id = some spelling →
          other.lookup? id = some spelling' → spelling = spelling') := by
  have hlib : lib.Gives Bin.InOrder := Library.gives_of_bins
    (fun _ _ _ hread => isSorted_of_ofSource hread)
    (.inr fun _ _ _ hdecode => (Bin.storable_of_decode hdecode).2.1.isSorted) hbins
  obtain ⟨b, p, s₁, s₂, _, _, hfound, hbuild, hruns₁, hruns₂, htable⟩ := Effect.runs_of_compile h
  have hresolver := (Preprocessor.seedsSpelled_build hbuild).2
  have hb : b.table.isSorted := hlib lib .refl name b hfound
  have hnone : SpellingTable.Sums [] .empty := ⟨rfl, fun _ => rfl⟩
  have hseeds : SpellingTable.Sums (seeds.flatMap Seed.tables) p.seedTable :=
    Preprocessor.addSeeds_sums hbuild hnone
  obtain ⟨entered₁, hentered₁⟩ := hruns₁.gathers
  obtain ⟨hsource₁, hsums₁⟩ := hentered₁.sums hlib hresolver (.find name .refl)
    ((SpellingTable.Sums.one hb).merge hseeds)
  obtain ⟨entered₂, hentered₂⟩ := hruns₂.gathers
  obtain ⟨-, hsums₂⟩ := hentered₂.sums hlib hresolver hsource₁ (hsums₁.merge hseeds)
  refine ⟨_, ⟨b, p, entered₁, entered₂, s₁, s₂, hfound, hbuild, hentered₁, hentered₂, rfl⟩, ?_, ?_⟩
  all_goals rw [htable]
  · exact hsums₂.lookup?_eq
  · exact hsums₂.kept_iff

/-- A file with the word `fx`, and an included one with the word `FGi8P`, which has the same id.
The effect compiles, and both words are the second one in it. -/
theorem compile_colliding :
    ∃ outer inner, Bin.ofSource [0x6D] (Bytes.ofString "#include <b> fx") = .ok outer ∧
      Bin.ofSource [0x62] (Bytes.ofString "FGi8P") = .ok inner ∧
      let lib : Library := ⟨[], [], .little, [([0x6D], outer), ([0x62], inner)], ⟨[], []⟩⟩
      (∀ entry ∈ lib.bins, entry.2.table.isSorted) ∧ (lib.find [0x6D]).answer = .ok outer ∧
        outer.table.lookup? 748693456 = some (Bytes.ofString "fx") ∧
        ∃ e, (Effect.compile lib none [0x6D] (fun _ => none) []).answer = .ok e ∧
          visible e.second = [748693456, 748693456] ∧
          e.table.lookup? 748693456 = some (Bytes.ofString "FGi8P") := by
  have houter : Script.readFrom 15 (Bytes.ofString "#include <b> fx") .empty
      = .ok ([TokenId.includeFile, 1908338681] ++ ([748693456] ++ []),
          ⟨[⟨748693456, [0x66, 0x78]⟩, ⟨1908338681, [0x62]⟩]⟩) :=
    Script.readFrom_item (by cbv) (by cbv)
      (Script.readFrom_item (by cbv) (by cbv) (Script.readFrom_end (by cbv) _))
  have hinner : Script.readFrom 5 (Bytes.ofString "FGi8P") .empty
      = .ok ([748693456] ++ [], ⟨[⟨748693456, [0x46, 0x47, 0x69, 0x38, 0x50]⟩]⟩) :=
    Script.readFrom_item (by cbv) (by cbv) (Script.readFrom_end (by cbv) _)
  have hspelled : (⟨[⟨748693456, [0x66, 0x78]⟩, ⟨1908338681, [0x62]⟩]⟩ : SpellingTable).lookup?
      748693456 = some (Bytes.ofString "fx") := by cbv
  have hmain := ofSource_of_readFrom [0x6D] (by decide) houter
  have hincluded := ofSource_of_readFrom [0x62] (by decide) hinner
  refine ⟨_, _, hmain, hincluded, ?_⟩
  intro lib
  have hcompiled : (Effect.compile lib none [0x6D] (fun _ => none) []).answer.map
      (fun e => (visible e.second, e.table.lookup? 748693456))
        = .ok ([748693456, 748693456], some (Bytes.ofString "FGi8P")) := by cbv
  obtain ⟨e, he, hknown⟩ := exists_ok_of_map hcompiled
  refine ⟨?_, rfl, hspelled, e, he, Prod.mk.inj hknown⟩
  rw [List.forall_mem_cons, List.forall_mem_singleton]
  exact ⟨isSorted_of_ofSource hmain, isSorted_of_ofSource hincluded⟩

/-- The words that meet are spelled differently, and the included one comes in last. -/
theorem last_spelling_stays_included :
    ∃ lib e tables, (Effect.compile lib none [0x6D] (fun _ => none) []).answer = .ok e ∧
      e.TakesIn lib none [0x6D] (fun _ => none) [] tables ∧
      tables.reverse.findSome? (·.lookup? 748693456) = some (Bytes.ofString "FGi8P") ∧
      ∃ one ∈ tables, ∃ other ∈ tables, one.lookup? 748693456 = some (Bytes.ofString "fx") ∧
        other.lookup? 748693456 = some (Bytes.ofString "FGi8P") := by
  obtain ⟨outer, inner, -, -, hbins, hfound, hspelled, e, he, -, hlast⟩ := compile_colliding
  obtain ⟨tables, htaken, hlookup, -⟩ := last_spelling_stays hbins none _ _ _ he
  rw [hlookup] at hlast
  refine ⟨_, e, tables, he, htaken, hlast, outer.table, ?_, ?_⟩
  · obtain ⟨b, p, entered₁, entered₂, s₁, s₂, hb, -, -, -, rfl⟩ := htaken
    rw [hfound] at hb
    cases hb
    simp
  · obtain ⟨other, hother, hspelled'⟩ := List.exists_of_findSome?_eq_some hlast
    exact ⟨other, List.mem_reverse.mp hother, hspelled, hspelled'⟩

/-- **A spelling can be lost**: an effect compiles, and its table does not have what the table of
its bin has for an id. -/
theorem colliding_spelling_lost :
    ∃ lib b e id, (lib.find [0x6D]).answer = .ok b ∧
      (Effect.compile lib none [0x6D] (fun _ => none) []).answer = .ok e ∧
      id ∈ visible e.second ∧ b.table.lookup? id = some (Bytes.ofString "fx") ∧
      e.table.lookup? id = some (Bytes.ofString "FGi8P") := by
  obtain ⟨outer, inner, -, -, -, hfound, hspelled, e, he, hvisible, hlast⟩ := compile_colliding
  refine ⟨_, outer, e, 748693456, hfound, he, ?_, hspelled, hlast⟩
  rw [hvisible]
  exact List.mem_cons_self

end EffectScript
