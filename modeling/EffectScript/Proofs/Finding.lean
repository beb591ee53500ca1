import EffectScript.Proofs.Resolution

/-!
# What a library finds

A bin that a library gives was in memory, was loaded from the cache, or was read from a source.
What holds of all these holds of whatever the library gives, now or after it was asked for other
bins (`Library.gives_of_bins`).
-/

namespace EffectScript

namespace Library

variable {P : Bin → Prop} {lib lib' : Library}

/-! ## 1. The ways in which a bin is found -/

/-- Storing a bin leaves the bins in memory and the place of the cache as they are. -/
theorem store_eq (lib : Library) (b : Bin) : ∃ files, (lib.store b).1 = { lib with files } := by
  unfold store
  split
  · exact ⟨lib.files, rfl⟩
  · split
    · exact ⟨lib.files, rfl⟩
    · split
      · exact ⟨_, rfl⟩
      · split <;> exact ⟨_, rfl⟩

/-- A bin that is loaded from the cache is read from a file there, and tells the checksum of the
source. -/
theorem loadStored_eq_some {name source : Bytes} {b : Bin}
    (h : (lib.loadStored name source).1 = some b) :
    lib.cache ≠ [] ∧ ∃ data, lib.files.read? (lib.storedPath name) = some data ∧
      Bin.decode name data = .ok b ∧ b.sourceChecksum = Crc32.checksum source := by
  unfold loadStored at h
  split at h
  · cases h
  · rename_i hcache
    refine ⟨hcache, ?_⟩
    split at h
    · cases h
    · rename_i data hdata
      split at h
      · cases h
      · rename_i hdecode
        dsimp only at h
        split at h
        · rename_i hsum
          cases h
          exact ⟨data, hdata, hdecode, hsum⟩
        · cases h

/-- The ways in which a bin is found, or not. -/
inductive Finds (lib : Library) (name : Bytes) : Found → Prop
  | refused (e : Error) (log : List Bytes) : Finds lib name ⟨.error e, log, lib⟩
  | remembered {b : Bin} (hmemory : lib.inMemory? name = some b) : Finds lib name ⟨.ok b, [], lib⟩
  | loaded {b : Bin} {data : Bytes} (log : List Bytes) (hcache : lib.cache ≠ [])
      (hread : lib.files.read? (lib.storedPath name) = some data)
        (hdecode : Bin.decode name data = .ok b) :
      Finds lib name ⟨.ok b, log, lib.remember name b⟩
  | made {b : Bin} {source : Bytes} (log : List Bytes)
      (hsource : Bin.ofSource name source = .ok b) :
      Finds lib name ⟨.ok b, log, (lib.store b).1.remember name b⟩

/-- **A bin is found in one of these ways.** -/
theorem finds_find (lib : Library) (name : Bytes) : Finds lib name (lib.find name) := by
  unfold find
  split
  · rename_i hmemory
    exact .remembered hmemory
  · split
    · exact .refused _ _
    · split
      · rename_i log hload
        obtain ⟨hcache, data, hread, hdecode, -⟩ := loadStored_eq_some (congrArg Prod.fst hload)
        exact .loaded log hcache hread hdecode
      · split
        · exact .refused _ _
        · rename_i hsource
          exact .made _ hsource

/-- What is in memory afterwards was there, or is the bin that is remembered. -/
theorem mem_remember {lib : Library} {name : Bytes} {b : Bin} {entry : Bytes × Bin}
    (h : entry ∈ (lib.remember name b).bins) : entry ∈ lib.bins ∨ entry = (name, b) := by
  rcases List.mem_append.mp h with hold | hnew
  · exact .inl (List.mem_filter.mp hold).1
  · exact .inr (List.mem_singleton.mp hnew)

/-- A library without a cache finds what the source gives. -/
theorem find_uncached {lib : Library} (hcache : lib.cache = []) {name text : Bytes}
    (hmemory : lib.inMemory? name = none) (hsource : lib.source name = .ok text) :
    (∀ e, Bin.ofSource name text = .error e → lib.find name = ⟨.error e, [], lib⟩) ∧
      ∀ b, Bin.ofSource name text = .ok b → lib.find name = ⟨.ok b, [], lib.remember name b⟩ := by
  have hload : lib.loadStored name text = (none, []) := if_pos hcache
  have hstore : ∀ b, lib.store b = (lib, []) := fun b => if_pos hcache
  constructor
  · intro e he
    simp only [find, hmemory, hsource, hload, he]
  · intro b hb
    simp only [find, hmemory, hsource, hload, hb, hstore, List.append_nil]

/-! ## 2. What a library gives -/

/-- Whatever the library gives, now or later, has a property. -/
def Gives (P : Bin → Prop) (lib : Library) : Prop :=
  ∀ lib', lib.Becomes lib' → ∀ name b, (lib'.find name).answer = .ok b → P b

/-- A property of the bins in memory, of those read from sources and of those loaded from the cache,
if there is one, is a property of what is found, and of the bins in memory then. -/
theorem find_keeps (hread : ∀ label source b, Bin.ofSource label source = .ok b → P b)
    (hstored : lib.cache = [] ∨ ∀ label data b, Bin.decode label data = .ok b → P b)
    (hbins : ∀ entry ∈ lib.bins, P entry.2) (name : Bytes) :
    (∀ b, (lib.find name).answer = .ok b → P b) ∧
      (∀ entry ∈ (lib.find name).library.bins, P entry.2) ∧
      (lib.find name).library.cache = lib.cache := by
  have hremember : ∀ {lib' : Library} {b : Bin}, lib'.bins = lib.bins → P b →
      ∀ entry ∈ (lib'.remember name b).bins, P entry.2 := by
    intro lib' b hsame hb entry hentry
    rcases mem_remember hentry with hold | rfl
    · exact hbins entry (hsame ▸ hold)
    · exact hb
  have hfinds := finds_find lib name
  generalize lib.find name = found at hfinds ⊢
  rcases hfinds with - | hmemory | ⟨-, hcache, -, hdecode⟩ | @⟨b, source, -, hsource⟩
  · exact ⟨by rintro _ ⟨⟩, hbins, rfl⟩
  · refine ⟨?_, hbins, rfl⟩
    rintro _ ⟨⟩
    exact hbins _ (mem_of_lookup hmemory)
  · have hb := (hstored.resolve_left hcache) _ _ _ hdecode
    refine ⟨?_, hremember rfl hb, rfl⟩
    rintro _ ⟨⟩
    exact hb
  · have hb := hread _ _ b hsource
    obtain ⟨files, hfiles⟩ := store_eq lib b
    rw [hfiles]
    refine ⟨?_, hremember rfl hb, rfl⟩
    rintro _ ⟨⟩
    exact hb

/-- **What the bins in memory and all other bins have, the library gives.** -/
theorem gives_of_bins (hread : ∀ label source b, Bin.ofSource label source = .ok b → P b)
    (hstored : lib.cache = [] ∨ ∀ label data b, Bin.decode label data = .ok b → P b)
    (hbins : ∀ entry ∈ lib.bins, P entry.2) : lib.Gives P := by
  have hkeeps : ∀ lib', lib.Becomes lib' →
      (∀ entry ∈ lib'.bins, P entry.2) ∧ lib'.cache = lib.cache := by
    intro lib' hbecomes
    induction hbecomes with
    | refl => exact ⟨hbins, rfl⟩
    | find name _ ih =>
      obtain ⟨-, hbins', hcache⟩ := find_keeps hread (ih.2 ▸ hstored) ih.1 name
      exact ⟨hbins', hcache.trans ih.2⟩
  intro lib' hbecomes name b hfound
  obtain ⟨hbins', hcache⟩ := hkeeps lib' hbecomes
  exact (find_keeps hread (hcache ▸ hstored) hbins' name).1 b hfound

end Library

end EffectScript
