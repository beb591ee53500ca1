import Mathlib
import EffectScript.Proofs.Transparency
import EffectScript.Proofs.Truncation

/-!
# Checksums of names

A bin has a name and the checksum of a name.  Where it was read from a source these belong together.
A stored form, though, keeps the checksum only, and is given its name by whoever loads it; and its
file is found by the last element of the name alone.  So two names with the same last element and
with sources of one checksum share a stored form, and the bin that is loaded under the second name
has the checksum of the first.

That is the only way in which it happens: the name of a bin is always the one that was asked for,
and its checksum is that of the same name, or of another one with the same last element that was
asked for before, in a library with a cache.  The invariant is that each file in a cache was stored
under a name that was asked for (`Site.Keeps`).

Main statements: `checksum_of_name_or_namesake`, `stored_form_keeps_first_name`.
-/

namespace EffectScript

open FileTree

/-! ## 1. Names and their stored forms -/

theorem Path.base_ne_nil (path : Bytes) : Path.base path ≠ [] := by
  unfold Path.base
  split
  · simp
  · dsimp only
    split
    · simp
    · assumption

namespace Library

/-- The file of a stored form tells the last element of the name. -/
theorem base_eq_of_storedEntry {name other : Bytes} (h : storedEntry name = storedEntry other) :
    Path.base name = Path.base other := by
  have hstem := List.append_cancel_right h
  split at hstem
  · rename_i hname
    split at hstem
    · rename_i hother
      rw [hname, hother]
    · exact absurd hstem.symm (Path.base_ne_nil other)
  · split at hstem
    · exact absurd hstem (Path.base_ne_nil name)
    · exact hstem

/-- Storing a bin puts its stored form into the cache, and no other file anywhere. -/
theorem store_files (lib : Library) (b : Bin) :
    ∃ files, (lib.store b).1 = { lib with files } ∧ files.here = lib.files.here ∧
      ∀ l data, files.node? l = some (.file data) → lib.files.node? l = some (.file data) ∨
        lib.cache ≠ [] ∧ l = endOf lib.files.here (lib.storedPath b.name) ∧
        b.encode lib.order = .ok data := by
  unfold store
  split
  · exact ⟨lib.files, rfl, rfl, fun _ _ => .inl⟩
  · rename_i hcache
    split
    · exact ⟨lib.files, rfl, rfl, fun _ _ => .inl⟩
    · rename_i data hencode
      have hmade := furnished_makeDirectories lib.files lib.cache
      -- Directories are made on the way, whether the file can be written or not.
      have hfiles : ∀ l content, (lib.files.makeDirectories lib.cache).1.node? l
          = some (.file content) →
          lib.files.node? l = some (.file content) := by
        intro l content hl
        rcases hmade.nodes l with hsame | ⟨-, -, hnew⟩
        · rw [← hsame, hl]
        · rw [hnew] at hl
          cases hl
      split
      · rename_i files c heq
        rw [heq] at hmade hfiles
        exact ⟨files, rfl, hmade.here, fun l content hl => .inl (hfiles l content hl)⟩
      · rename_i files heq
        rw [heq] at hmade hfiles
        split
        · exact ⟨files, rfl, hmade.here, fun l content hl => .inl (hfiles l content hl)⟩
        · rename_i files' hwrite
          rcases write_eq_ok hwrite with rfl | ⟨rfl, -⟩
          · exact ⟨files', rfl, hmade.here, fun l content hl => .inl (hfiles l content hl)⟩
          · refine ⟨_, rfl, by simpa using hmade.here, fun l content hl => ?_⟩
            by_cases hroot : l = []
            · subst hroot
              cases hl
            · rw [node?_change _ _ _ hroot, hmade.here] at hl
              split at hl
              · rename_i hat
                cases hl
                exact .inr ⟨hcache, hat, hencode⟩
              · exact .inl (hfiles l content hl)

end Library

/-- **A stored form keeps the checksum of the name that it was stored under**, however long it
is. -/
theorem Bin.nameChecksum_of_decode {order : ByteOrder} {made b : Bin} {name data : Bytes}
    (hencode : made.encode order = .ok data) (h : Bin.decode name data = .ok b) :
    b.name = name ∧ b.nameChecksum = made.nameChecksum := by
  obtain ⟨ids, rfl⟩ := Bin.exists_form_of_encode hencode
  obtain ⟨order', table, horder, -, -, -, -, -, rfl⟩ := Bin.decode_eq_ok h
  refine ⟨rfl, ?_⟩
  rw [Bin.form, Bin.orderOf?_header] at horder
  obtain rfl := Option.some.inj horder
  obtain ⟨-, -, -, hchecksum, -⟩ := Bin.header_fields order made ids.length
    (Bin.encodeStrings order made.table).length
      (ids.flatMap order.put32 ++ Bin.encodeStrings order made.table)
  exact hchecksum

theorem Bin.nameChecksum_of_ofSource {name source : Bytes} {b : Bin}
    (h : Bin.ofSource name source = .ok b) :
    b.name = name ∧ b.nameChecksum = Bin.checksumOfName name := by
  obtain ⟨script, -, rfl⟩ := exists_script_of_ofSource h
  exact ⟨rfl, rfl⟩

/-! ## 2. One library -/

/-- A bin that is given for a name has this name, and its checksum or, if a cache is used, that of a
namesake: of another one of the names with the same last element. -/
def Bin.Carries (cached : Prop) (names : List Bytes) (name : Bytes) (b : Bin) : Prop :=
  b.name = name ∧ (b.nameChecksum = Bin.checksumOfName name ∨
    cached ∧ ∃ other ∈ names, other ≠ name ∧ Path.base other = Path.base name ∧
      b.nameChecksum = Bin.checksumOfName other)

theorem Bin.Carries.mono {cached : Prop} {names names' : List Bytes} {name : Bytes} {b : Bin}
    (h : b.Carries cached names name) (hsub : names ⊆ names') : b.Carries cached names' name := by
  refine ⟨h.1, h.2.imp_right ?_⟩
  rintro ⟨hcached, other, hother, hrest⟩
  exact ⟨hcached, other, hsub hother, hrest⟩

theorem Bin.carries_of_ofSource {cached : Prop} {names : List Bytes} {name source : Bytes} {b : Bin}
    (h : Bin.ofSource name source = .ok b) : b.Carries cached names name := by
  obtain ⟨hname, hchecksum⟩ := Bin.nameChecksum_of_ofSource h
  exact ⟨hname, .inl hchecksum⟩

namespace Library

/-- The files in the directories are stored forms, each of a bin with one of the names, under its
own entry. -/
def Labelled (caches : List (List Bytes)) (names : List Bytes) (files : FileTree) : Prop :=
  ∀ directory ∈ caches, ∀ entry data, files.node? (directory ++ [entry]) = some (.file data) →
    ∃ name ∈ names, entry = storedEntry name ∧
      ∃ source b order, Bin.ofSource name source = .ok b ∧ b.encode order = .ok data

/-- The cache of a library is one of the directories, and its bins carry what they have to. -/
structure Keeps (here : List Bytes) (caches : List (List Bytes)) (names : List Bytes)
    (lib : Library) : Prop where
  cache : lib.cache ≠ [] → endOf here lib.cache ∈ caches
  bins : ∀ entry ∈ lib.bins, entry.2.Carries (lib.cache ≠ []) names entry.1

variable {here : List Bytes} {caches : List (List Bytes)} {names : List Bytes} {lib : Library}

theorem Labelled.mono {files : FileTree} (h : Labelled caches names files) {names' : List Bytes}
    (hsub : names ⊆ names') : Labelled caches names' files := by
  intro directory hdirectory entry data hdata
  obtain ⟨name, hname, hrest⟩ := h directory hdirectory entry data hdata
  exact ⟨name, hsub hname, hrest⟩

theorem Keeps.mono (h : lib.Keeps here caches names) {names' : List Bytes} (hsub : names ⊆ names') :
    lib.Keeps here caches names' :=
  ⟨h.cache, fun entry hentry => (h.bins entry hentry).mono hsub⟩

theorem Keeps.withFiles (h : lib.Keeps here caches names) (files : FileTree) :
    Keeps here caches names { lib with files } := ⟨h.cache, h.bins⟩

theorem Keeps.remember (h : lib.Keeps here caches names) {name : Bytes} {b : Bin}
    (hb : b.Carries (lib.cache ≠ []) names name) :
    (lib.remember name b).Keeps here caches names := by
  refine ⟨h.cache, fun entry hentry => ?_⟩
  rcases mem_remember hentry with hold | rfl
  · exact h.bins entry hold
  · exact hb

/-- What is loaded from a cache was stored under the same name, or under a namesake. -/
theorem carries_of_loaded (hfiles : Labelled caches names lib.files)
    (hlib : lib.Keeps lib.files.here caches names)
    {name data : Bytes} {b : Bin} (hcache : lib.cache ≠ [])
    (hread : lib.files.read? (lib.storedPath name) = some data)
    (hdecode : Bin.decode name data = .ok b) : b.Carries (lib.cache ≠ []) names name := by
  have hnode : lib.files.node? (endOf lib.files.here lib.cache ++ [storedEntry name])
      = some (.file data) := by
    rw [← endOf_storedPath hcache]
    refine (eq_of_read? hread).resolve_right ?_
    rintro rfl
    cases hdecode
  obtain ⟨other, hother, hentry, source, made, order, hmade, hencode⟩ :=
    hfiles _ (hlib.cache hcache) _ data hnode
  obtain ⟨hname, hchecksum⟩ := Bin.nameChecksum_of_decode hencode hdecode
  rw [(Bin.nameChecksum_of_ofSource hmade).2] at hchecksum
  refine ⟨hname, ?_⟩
  by_cases hsame : other = name
  · exact .inl (hsame ▸ hchecksum)
  · exact .inr ⟨hcache, other, hother, hsame, (base_eq_of_storedEntry hentry).symm, hchecksum⟩

/-- Storing a bin under its name keeps the caches labelled, the name counted in. -/
theorem store_labelled (hfiles : Labelled caches names lib.files) {name source : Bytes} {b : Bin}
    (hsource : Bin.ofSource name source = .ok b) :
    ∃ files, (lib.store b).1 = { lib with files } ∧ files.here = lib.files.here ∧
      Labelled caches (names ++ [name]) files := by
  obtain ⟨files, hstore, hhere, hnodes⟩ := store_files lib b
  refine ⟨files, hstore, hhere, fun directory hdirectory entry data hdata => ?_⟩
  rcases hnodes _ data hdata with hold | ⟨hcache, hat, hencode⟩
  · exact hfiles.mono (List.subset_append_left _ _) directory hdirectory entry data hold
  · rw [(Bin.nameChecksum_of_ofSource hsource).1, endOf_storedPath hcache] at hat
    obtain ⟨-, hentry⟩ := List.append_inj' hat rfl
    exact ⟨name, by simp, List.singleton_inj.mp hentry, source, b, lib.order, hsource, hencode⟩

/-- **What a library finds carries the name, and keeps all that is kept.** -/
theorem find_carries (hfiles : Labelled caches names lib.files)
    (hlib : lib.Keeps lib.files.here caches names) (name : Bytes) :
    (∀ b, (lib.find name).answer = .ok b → b.Carries (lib.cache ≠ []) names name) ∧
      (lib.find name).library.files.here = lib.files.here ∧
      Labelled caches (names ++ [name]) (lib.find name).library.files ∧
      (lib.find name).library.Keeps lib.files.here caches (names ++ [name]) := by
  have hsub : names ⊆ names ++ [name] := List.subset_append_left _ _
  have hfinds := finds_find lib name
  generalize lib.find name = found at hfinds ⊢
  rcases hfinds with - | hmemory | ⟨-, hcache, hread, hdecode⟩ | @⟨b, source, -, hsource⟩
  · exact ⟨by rintro _ ⟨⟩, rfl, hfiles.mono hsub, hlib.mono hsub⟩
  · refine ⟨?_, rfl, hfiles.mono hsub, hlib.mono hsub⟩
    rintro _ ⟨⟩
    exact hlib.bins _ (mem_of_lookup hmemory)
  · have hb := carries_of_loaded hfiles hlib hcache hread hdecode
    refine ⟨?_, rfl, hfiles.mono hsub, (hlib.mono hsub).remember (hb.mono hsub)⟩
    rintro _ ⟨⟩
    exact hb
  · obtain ⟨files, hstore, hhere, hlabelled⟩ := store_labelled hfiles hsource
    rw [hstore]
    refine ⟨?_, hhere, hlabelled,
      ((hlib.mono hsub).withFiles files).remember (Bin.carries_of_ofSource hsource)⟩
    rintro _ ⟨⟩
    exact Bin.carries_of_ofSource hsource

end Library

/-! ## 3. Histories -/

namespace Site

/-- What can be done at a site: an event, in which a library that is opened with a cache has the
given one, or a source that is given to a library under a name. -/
inductive Act where
  | event (cache : Bytes) (event : Event)
  | adds (index : Nat) (name source : Bytes)

/-- The library that is asked for a bin, and the name of the bin. -/
def Act.asks? : Act → Option (Nat × Bytes)
  | .event _ (.finds index name) => some (index, name)
  | .adds index name _ => some (index, name)
  | _ => none

/-- The names that are asked for. -/
def asked (acts : List Act) : List Bytes := acts.flatMap fun act => (act.asks?.map (·.2)).toList

/-- The site after an act, and what a library answered. -/
def act (s : Site) : Act → Site × List (Except Error Bin)
  | .event cache event => s.step cache event
  | .adds index name source =>
    match s.library? index with
    | none => (s, [])
    | some lib =>
      match lib.add name source with
      | .error e => (s, [.error e])
      | .ok (b, lib) => (⟨s.files, s.libraries.set index lib⟩, [.ok b])

/-- The site after some acts. -/
def after (s : Site) (acts : List Act) : Site := acts.foldl (fun s act => (s.act act).1) s

/-- Libraries are opened with caches at these locations only, and nobody else puts files there. -/
def Act.Fits (here : List Bytes) (caches : List (List Bytes)) : Act → Prop
  | .event cache (.opens _ _ cached) => cached → cache ≠ [] → endOf here cache ∈ caches
  | .event _ (.changes location node) => ∀ data, node = some (.file data) →
      ∀ directory ∈ caches, ∀ entry, location ≠ directory ++ [entry]
  | _ => True

theorem Act.fits_of_asks? {here : List Bytes} {caches : List (List Bytes)} {act : Act} {index : Nat}
    {name : Bytes} (h : act.asks? = some (index, name)) : act.Fits here caches := by
  cases act with
  | adds index name source => trivial
  | event cache event =>
    cases event with
    | opens directories order cached => cases h
    | finds index name => trivial
    | changes location node => cases h

/-- The caches are labelled with names that were asked for, and all libraries keep to these
names. -/
structure Keeps (here : List Bytes) (caches : List (List Bytes)) (names : List Bytes) (s : Site) :
    Prop where
  here_eq : s.files.here = here
  stored : Library.Labelled caches names s.files
  libraries : ∀ lib ∈ s.libraries, lib.Keeps here caches names

variable {here : List Bytes} {caches : List (List Bytes)} {names : List Bytes} {s : Site}

theorem Keeps.mono (h : s.Keeps here caches names) {names' : List Bytes} (hsub : names ⊆ names') :
    s.Keeps here caches names' :=
  ⟨h.here_eq, h.stored.mono hsub, fun lib hlib => (h.libraries lib hlib).mono hsub⟩

theorem Keeps.library? (h : s.Keeps here caches names) {index : Nat} {lib : Library}
    (hlib : s.library? index = some lib) : lib.files = s.files ∧ lib.Keeps here caches names := by
  obtain ⟨lib', hmem, rfl⟩ := Option.map_eq_some_iff.mp hlib
  exact ⟨rfl, (h.libraries lib' (List.mem_of_getElem? hmem)).withFiles s.files⟩

theorem Keeps.set (h : s.Keeps here caches names) (index : Nat) {lib : Library}
    (hlib : lib.Keeps here caches names) :
    ∀ lib' ∈ s.libraries.set index lib, lib'.Keeps here caches names := by
  intro lib' hmem
  rcases List.mem_or_eq_of_mem_set hmem with hold | rfl
  · exact h.libraries lib' hold
  · exact hlib

theorem Keeps.opens (h : s.Keeps here caches names) {cache : Bytes} (directories : List Bytes)
    (order : ByteOrder) {cached : Bool} (hcache : cached → cache ≠ [] → endOf here cache ∈ caches) :
    (s.step cache (.opens directories order cached)).1.Keeps here caches names := by
  refine ⟨h.here_eq, h.stored, fun lib hlib => ?_⟩
  rcases List.mem_append.mp hlib with hold | hnew
  · exact h.libraries lib hold
  · rw [List.mem_singleton.mp hnew]
    refine ⟨?_, by simp [Library.empty]⟩
    cases cached with
    | true => exact hcache rfl
    | false => exact fun hne => absurd rfl hne

/-- Something else is put at a location, but no file into a cache. -/
theorem Keeps.changes (h : s.Keeps here caches names) (cache : Bytes) {location : List Bytes}
    {node : Option FileNode} (hnode : ∀ data, node = some (.file data) →
      ∀ directory ∈ caches, ∀ entry, location ≠ directory ++ [entry]) :
    (s.step cache (.changes location node)).1.Keeps here caches names := by
  refine ⟨(here_change _ _ _).trans h.here_eq, ?_, h.libraries⟩
  intro directory hdirectory entry data hdata
  replace hdata : (s.files.change location node).node? (directory ++ [entry])
      = some (.file data) := hdata
  rw [node?_change _ _ _ (by simp)] at hdata
  split at hdata
  · rename_i hat
    exact absurd hat.symm (hnode data hdata directory hdirectory entry)
  · exact h.stored directory hdirectory entry data hdata

theorem Keeps.finds (h : s.Keeps here caches names) (cache : Bytes) (index : Nat) (name : Bytes) :
    (s.step cache (.finds index name)).1.Keeps here caches (names ++ [name]) ∧
      ∀ b, .ok b ∈ (s.step cache (.finds index name)).2 →
        ∃ lib, s.library? index = some lib ∧ b.Carries (lib.cache ≠ []) names name := by
  have hsub : names ⊆ names ++ [name] := List.subset_append_left _ _
  cases hlib : s.library? index with
  | none =>
    simp only [Site.step, hlib]
    exact ⟨h.mono hsub, by simp⟩
  | some lib =>
    obtain ⟨hfiles, hkeeps⟩ := h.library? hlib
    have hhere : lib.files.here = here := by rw [hfiles, h.here_eq]
    obtain ⟨hanswer, hhere', hstored, hkeeps'⟩ :=
      Library.find_carries (hfiles ▸ h.stored) (hhere ▸ hkeeps) name
    rw [step_finds hlib rfl]
    refine ⟨⟨hhere'.trans hhere, hstored, (h.mono hsub).set index (hhere ▸ hkeeps')⟩,
      fun b hb => ?_⟩
    exact ⟨lib, rfl, hanswer b (List.mem_singleton.mp hb).symm⟩

theorem Keeps.adds (h : s.Keeps here caches names) (index : Nat) (name source : Bytes) :
    (s.act (.adds index name source)).1.Keeps here caches names ∧
      ∀ b, .ok b ∈ (s.act (.adds index name source)).2 →
        ∃ lib, s.library? index = some lib ∧ b.Carries (lib.cache ≠ []) names name := by
  cases hlib : s.library? index with
  | none =>
    simp only [Site.act, hlib]
    exact ⟨h, by simp⟩
  | some lib =>
    obtain ⟨-, hkeeps⟩ := h.library? hlib
    cases hsource : Bin.ofSource name source with
    | error e =>
      simp only [Site.act, hlib, Library.add, hsource]
      exact ⟨h, by simp⟩
    | ok b =>
      have hb : b.Carries (lib.cache ≠ []) names name := Bin.carries_of_ofSource hsource
      simp only [Site.act, hlib, Library.add, hsource]
      refine ⟨⟨h.here_eq, h.stored, h.set index (hkeeps.remember hb)⟩, fun b' hb' => ?_⟩
      obtain rfl := Except.ok.inj (List.mem_singleton.mp hb')
      exact ⟨lib, rfl, hb⟩

/-- **An act keeps all that is kept, and what a library answers carries the name that it was asked
for.** -/
theorem Keeps.act (h : s.Keeps here caches names) {act : Act} (hfits : act.Fits here caches) :
    (s.act act).1.Keeps here caches (names ++ (act.asks?.map (·.2)).toList) ∧
      ∀ index name b, act.asks? = some (index, name) → .ok b ∈ (s.act act).2 →
        ∃ lib, s.library? index = some lib ∧ b.Carries (lib.cache ≠ []) names name := by
  have hsub : ∀ more, names ⊆ names ++ more := fun more => List.subset_append_left _ _
  cases act with
  | adds index name source =>
    obtain ⟨hkeeps, hanswer⟩ := h.adds index name source
    refine ⟨hkeeps.mono (hsub _), ?_⟩
    rintro _ _ b ⟨⟩
    exact hanswer b
  | event cache event =>
    cases event with
    | opens directories order cached =>
      refine ⟨(h.opens directories order hfits).mono (hsub _), ?_⟩
      rintro _ _ _ ⟨⟩
    | finds index name =>
      obtain ⟨hkeeps, hanswer⟩ := h.finds cache index name
      refine ⟨hkeeps, ?_⟩
      rintro _ _ b ⟨⟩
      exact hanswer b
    | changes location node =>
      refine ⟨(h.changes cache hfits).mono (hsub _), ?_⟩
      rintro _ _ _ ⟨⟩

/-- All acts keep it, with all names that are asked for. -/
theorem Keeps.after (h : s.Keeps here caches names) {acts : List Act}
    (hfits : ∀ act ∈ acts, act.Fits here caches) :
    (s.after acts).Keeps here caches (names ++ asked acts) := by
  induction acts generalizing s names with
  | nil => simpa [Site.after, asked] using h
  | cons act acts ih =>
    obtain ⟨hfirst, hrest⟩ := List.forall_mem_cons.mp hfits
    obtain ⟨hkeeps, -⟩ := h.act hfirst
    have hafter := ih hkeeps hrest
    rwa [List.append_assoc] at hafter

end Site

/-! ## 4. Namesakes -/

namespace Namesakes

/-- Two files of one name and one content, in two directories. -/
def files : FileTree :=
  ⟨[([[0x64]], .directory), ([[0x64], [0x61]], .directory), ([[0x64], [0x62]], .directory),
    ([[0x64], [0x61], [0x78, 0x2E, 0x63, 0x66, 0x69]], .file [0x30]),
    ([[0x64], [0x62], [0x78, 0x2E, 0x63, 0x66, 0x69]], .file [0x30])], []⟩

/-- A library with a cache, and then the first of them. -/
def acts : List Site.Act :=
  [.event [0x63] (.opens [[0x64]] .little true), .event [] (.finds 0 [0x61, 0x2F, 0x78])]

/-- The bin of either of them, stored first under the name of the first. -/
def bin (name : Bytes) : Bin := ⟨name, 4204181862, 4108050209, .empty, [.lit TokenId.zero]⟩

theorem checksums : Bin.checksumOfName [0x61, 0x2F, 0x78] = 4204181862 ∧
    Bin.checksumOfName [0x62, 0x2F, 0x78] = 4174382911 ∧ Crc32.checksum [0x30] = 4108050209 :=
  ⟨by cbv, by cbv, by cbv⟩

theorem ofSource_first : Bin.ofSource [0x61, 0x2F, 0x78] [0x30] = .ok (bin [0x61, 0x2F, 0x78]) := by
  have hread : Script.readFrom 1 [0x30] .empty = .ok ([TokenId.zero] ++ [], .empty) :=
    Script.readFrom_item (by cbv) (by cbv) (Script.readFrom_end (by cbv) _)
  obtain ⟨hname, -, hsource⟩ := checksums
  rw [ofSource_of_readFrom _ (by decide) hread, hname, hsource]
  rfl

/-- The stored form of either. -/
def stored : Bytes :=
  [0x46, 0x58, 0x53, 0x42, 1, 0, 4, 0, 0x66, 0xB9, 0x96, 0xFA, 0x21, 0xDF, 0xDB, 0xF4] ++
    [1, 0, 0, 0, 32, 0, 0, 0, 32, 0, 0, 0, 44, 0, 0, 0]

/-- The files with the stored form in the cache. -/
def filesBehind : FileTree :=
  ⟨([[0x63], [0x78, 0x2E, 0x66, 0x78, 0x62]], .file stored) :: ([[0x63]],
    .directory) :: files.nodes, []⟩

/-- The library at first. -/
def library : Library := .empty [[0x64]] [0x63] .little files

/-- The library behind the first of them. -/
def libraryBehind : Library :=
  Library.remember { library with files := filesBehind } [0x61, 0x2F, 0x78] (bin [0x61, 0x2F, 0x78])

theorem store_first :
    library.store (bin [0x61, 0x2F, 0x78]) = ({ library with files := filesBehind }, []) := by
  cbv

theorem find_first :
    library.find [0x61, 0x2F, 0x78] = ⟨.ok (bin [0x61, 0x2F, 0x78]), [], libraryBehind⟩ := by
  have hsource : library.source [0x61, 0x2F, 0x78] = .ok [0x30] := by cbv
  have hload : library.loadStored [0x61, 0x2F, 0x78] [0x30] = (none, []) := by cbv
  have hmemory : library.inMemory? [0x61, 0x2F, 0x78] = none := rfl
  simp only [Library.find, hmemory, hsource, hload, ofSource_first, store_first]
  rfl

/-- What was stored is loaded for the second, with the name of the second. -/
theorem find_second :
    (libraryBehind.find [0x62, 0x2F, 0x78]).answer = .ok (bin [0x62, 0x2F, 0x78]) := by
  have hsource : libraryBehind.source [0x62, 0x2F, 0x78] = .ok [0x30] := by cbv
  have hread : libraryBehind.files.read? (libraryBehind.storedPath [0x62, 0x2F, 0x78])
      = some stored := by cbv
  have hdecode : Bin.decode [0x62, 0x2F, 0x78] stored = .ok (bin [0x62, 0x2F, 0x78]) := by cbv
  have hload : libraryBehind.loadStored [0x62, 0x2F, 0x78] [0x30]
      = (some (bin [0x62, 0x2F, 0x78]), []) := by
    rw [Library.loadStored, if_neg (by decide), hread]
    simp only [hdecode, checksums.2.2]
    rfl
  have hmemory : libraryBehind.inMemory? [0x62, 0x2F, 0x78] = none := by decide
  simp only [Library.find, hmemory, hsource, hload]

theorem after_acts : Site.after ⟨files, []⟩ acts = ⟨filesBehind, [libraryBehind]⟩ := by
  have hfinds : Site.step [] ⟨files, [library]⟩ (.finds 0 [0x61, 0x2F, 0x78])
      = (⟨filesBehind, [libraryBehind]⟩, [.ok (bin [0x61, 0x2F, 0x78])]) :=
        Site.step_finds rfl find_first
  exact congrArg Prod.fst hfinds

theorem answer_second :
    ((Site.after ⟨files, []⟩ acts).act (.event [] (.finds 0 [0x62, 0x2F, 0x78]))).2
    = [.ok (bin [0x62, 0x2F, 0x78])] := by
  rw [after_acts, Site.act, Site.step_finds rfl rfl]
  exact congrArg ([·]) find_second

end Namesakes

/-- **A bin has the name that was asked for, and the checksum of this name or of a namesake.**  Let
libraries be opened, with caches or without, let them be asked for bins and be given sources, and
let files be changed, in any order.  The caches are at the given locations, where there are no files
at first and nobody else puts any.  A bin that a library then gives for a name has this name.  Its
checksum is that of the name, too; or else the library has a cache, and it is the checksum of
another name with the same last element that was asked for before. -/
theorem checksum_of_name_or_namesake (files : FileTree) (caches : List (List Bytes))
    (hempty : ∀ directory ∈ caches, ∀ entry data, files.node? (directory ++ [entry])
      ≠ some (.file data))
    (acts : List Site.Act) (hfits : ∀ act ∈ acts, act.Fits files.here caches) {act : Site.Act}
    {index : Nat} {name : Bytes} {b : Bin} (hasks : act.asks? = some (index, name))
    (hanswer : .ok b ∈ ((Site.after ⟨files, []⟩ acts).act act).2) :
    ∃ lib, (Site.after ⟨files, []⟩ acts).library? index = some lib ∧ b.name = name ∧
      (b.nameChecksum = Bin.checksumOfName name ∨
        lib.cache ≠ [] ∧ ∃ other ∈ Site.asked acts, other ≠ name ∧
          Path.base other = Path.base name ∧
          b.nameChecksum = Bin.checksumOfName other) := by
  have hstart : Site.Keeps files.here caches [] ⟨files, []⟩ :=
    ⟨rfl, fun directory hdirectory entry data h =>
      absurd h (hempty directory hdirectory entry data), by simp⟩
  have hkeeps := hstart.after hfits
  rw [List.nil_append] at hkeeps
  exact (hkeeps.act (Site.Act.fits_of_asks? hasks)).2 index name b hasks hanswer

/-- The second name is answered by a bin with the checksum of the first, which was asked for
before. -/
theorem checksum_of_name_or_namesake_loaded :
    ∃ lib, (Site.after ⟨Namesakes.files, []⟩ Namesakes.acts).library? 0 = some lib ∧
      lib.cache ≠ [] ∧
      ∃ other ∈ Site.asked Namesakes.acts, other ≠ [0x62, 0x2F, 0x78] ∧
        Path.base other = Path.base [0x62, 0x2F, 0x78] ∧
        (Namesakes.bin [0x62, 0x2F, 0x78]).nameChecksum = Bin.checksumOfName other := by
  have hcache : endOf Namesakes.files.here [0x63] = [[0x63]] := by cbv
  have hempty : ∀ directory ∈ [[[0x63]]], ∀ entry data,
      Namesakes.files.node? (directory ++ [entry]) ≠ some (.file data) := by
    intro directory hdirectory entry data
    rw [List.mem_singleton.mp hdirectory]
    simp [node?, Namesakes.files, List.lookup_cons]
  have hfits : ∀ act ∈ Namesakes.acts, act.Fits Namesakes.files.here [[[0x63]]] := by
    refine List.forall_mem_cons.mpr ⟨fun _ _ => ?_, List.forall_mem_singleton.mpr trivial⟩
    rw [hcache]
    exact List.mem_singleton.mpr rfl
  have hanswer : .ok (Namesakes.bin [0x62, 0x2F, 0x78]) ∈
      ((Site.after ⟨Namesakes.files, []⟩ Namesakes.acts).act
        (.event [] (.finds 0 [0x62, 0x2F, 0x78]))).2 := by
    rw [Namesakes.answer_second, List.mem_singleton]
  obtain ⟨lib, hlib, -, hown | hother⟩ :=
    checksum_of_name_or_namesake Namesakes.files [[[0x63]]] hempty Namesakes.acts hfits rfl hanswer
  · rw [Namesakes.checksums.2.1] at hown
    exact absurd hown (by decide)
  · exact ⟨lib, hlib, hother⟩

/-- **A stored form keeps the name that it was stored under first**: the bin that is given for the
second name has the checksum of the first. -/
theorem stored_form_keeps_first_name :
    ∃ b, .ok b ∈ ((Site.after ⟨Namesakes.files, []⟩ Namesakes.acts).act
        (.event [] (.finds 0 [0x62, 0x2F, 0x78]))).2 ∧
      b.name = [0x62, 0x2F, 0x78] ∧ b.nameChecksum = Bin.checksumOfName [0x61, 0x2F, 0x78] ∧
      b.nameChecksum ≠ Bin.checksumOfName [0x62, 0x2F, 0x78] := by
  obtain ⟨hfirst, hsecond, -⟩ := Namesakes.checksums
  refine ⟨_, by rw [Namesakes.answer_second, List.mem_singleton], rfl, hfirst.symm, ?_⟩
  rw [hsecond]
  decide

end EffectScript
