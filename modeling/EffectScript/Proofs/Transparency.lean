import EffectScript.Proofs.Finding
import EffectScript.Proofs.StoredForm
import EffectScript.Proofs.Walks

/-!
# The cache of stored bins

Libraries may share a directory in which they keep the stored forms of what they read.  The file of
a stored form has the last element of the bin's name, so bins of different names and of different
sources overwrite each other there, in whichever byte order a library stores.  None of that can be
seen: whatever happens to the files, the libraries give what they would give without the cache.

All that is needed is that the directory is there and holds no files at first, that no path that is
tried for a source leads to an entry of it, that the sources read have different checksums, and
that their stored forms are shorter than `2 ^ 32` bytes.  The invariant is that every file in the
directory is the stored form of a source that was read, and that the directories are the same with
the cache as without it (`Overlay`).

The directory has to be there.  One that is missing is made with the first bin that is stored,
together with those above it that are missing, and from then on a path that leads into one of them
and out again by `..` leads somewhere.

Main statement: `cache_transparent`.
-/

namespace EffectScript

open FileTree

/-! ## 1. Files with a cache among them -/

namespace Cache

/-- A location is an entry of the cache directory. -/
def Holds (here : List Bytes) (cache : Bytes) (location : List Bytes) : Prop :=
  ∃ entry, location = endOf here cache ++ [entry]

/-- The data are the stored form of a bin that was read from one of the texts. -/
def Genuine (texts : Bytes → Prop) (data : Bytes) : Prop :=
  ∃ text label b order, texts text ∧ Bin.ofSource label text = .ok b ∧ b.encode order = .ok data

/-- The texts are told apart by their checksums, and their stored forms are short enough to tell
where their parts are. -/
structure Told (texts : Bytes → Prop) : Prop where
  checksums : ∀ a b, texts a → texts b → Crc32.checksum a = Crc32.checksum b → a = b
  sizes : ∀ text label b order data, texts text → Bin.ofSource label text = .ok b →
    b.encode order = .ok data → data.length < 2 ^ 32

/-- The files `c` are the files `u` and a cache, in which all files are genuine. -/
structure Overlay (cache : Bytes) (texts : Bytes → Prop) (c u : FileTree) : Prop where
  here : c.here = u.here
  there : u.stat cache = .ok .directory
  outside : ∀ l, ¬ Holds u.here cache l → c.node? l = u.node? l
  directories : ∀ l, c.node? l = some .directory ↔ u.node? l = some .directory
  stored : ∀ l data, Holds u.here cache l → c.node? l = some (.file data) → Genuine texts data

namespace Overlay

variable {cache : Bytes} {texts : Bytes → Prop} {c c' u : FileTree} {path : Bytes}

/-- The same paths can be followed, for they lead through directories. -/
theorem locate_iff (h : Overlay cache texts c u) {stop : List Bytes} :
    c.locate path = .ok stop ↔ u.locate path = .ok stop :=
  ⟨locate_mono h.here fun l => (h.directories l).mp,
    locate_mono h.here.symm fun l => (h.directories l).mpr⟩

theorem stat_directory_iff (h : Overlay cache texts c u) :
    c.stat path = .ok .directory ↔ u.stat path = .ok .directory := by
  rw [stat_eq_ok_iff, stat_eq_ok_iff, h.here, h.locate_iff, h.directories]

/-- A path that does not end in the cache leads to the same thing, if to anything. -/
theorem stat_ok_iff (h : Overlay cache texts c u) (hend : ¬ Holds u.here cache (endOf u.here path))
    {node : FileNode} : c.stat path = .ok node ↔ u.stat path = .ok node := by
  rw [stat_eq_ok_iff, stat_eq_ok_iff, h.here, h.locate_iff, h.outside _ hend]

theorem isFile_eq (h : Overlay cache texts c u)
    (hend : ¬ Holds u.here cache (endOf u.here path)) : c.isFile path = u.isFile path := by
  rw [Bool.eq_iff_iff, isFile_iff, isFile_iff]
  simp only [h.stat_ok_iff hend]

/-- When there is a file, the shortest form of its path leads to the same thing as well. -/
theorem stat_clean_eq (h : Overlay cache texts c u)
    (hend : ¬ Holds u.here cache (endOf u.here path)) (hfile : u.isFile path) :
    c.stat (Path.clean path) = u.stat (Path.clean path) := by
  obtain ⟨node, hstat, -⟩ := isFile_iff.mp hfile
  refine stat_congr h.here fun l hl => ?_
  rw [h.here] at hl
  rcases directory_of_mem_wayOf hstat (wayOf_clean _ _ hl) with hdirectory | rfl
  · rw [hdirectory, (h.directories l).mpr hdirectory]
  · exact h.outside _ hend

/-- The same change of both leaves the cache what it is, unless it puts a file there or takes the
directory away. -/
theorem change (h : Overlay cache texts c u) (location : List Bytes) {node : Option FileNode}
    (hfile : ∀ data, node = some (.file data) → ¬ Holds u.here cache location)
    (hthere : (u.change location node).stat cache = .ok .directory) :
    Overlay cache texts (c.change location node) (u.change location node) := by
  have hboth : ∀ l, (l = location ∧ (c.change location node).node? l = node ∧
      (u.change location node).node? l = node) ∨
      (c.change location node).node? l = c.node? l ∧
        (u.change location node).node? l = u.node? l := by
    intro l
    by_cases hroot : l = []
    · subst hroot
      exact .inr ⟨rfl, rfl⟩
    · rw [node?_change c location node hroot, node?_change u location node hroot]
      by_cases hl : l = location <;> simp [hl]
  refine ⟨by simpa using h.here, hthere, fun l hl => ?_, fun l => ?_, fun l data hl hdata => ?_⟩
  · rw [here_change] at hl
    rcases hboth l with ⟨-, hc, hu⟩ | ⟨hc, hu⟩
    · rw [hc, hu]
    · rw [hc, hu]
      exact h.outside l hl
  · rcases hboth l with ⟨-, hc, hu⟩ | ⟨hc, hu⟩
    · rw [hc, hu]
    · rw [hc, hu]
      exact h.directories l
  · rw [here_change] at hl
    rcases hboth l with ⟨rfl, hc, -⟩ | ⟨hc, -⟩
    · exact absurd hl (hfile data (hc ▸ hdata))
    · exact h.stored l data hl (hc ▸ hdata)

/-- A genuine file that is written into the cache changes nothing else. -/
theorem write (h : Overlay cache texts c u) {data : Bytes}
    (hpath : Holds u.here cache (endOf u.here path)) (hdata : Genuine texts data)
    (hwrite : c.write path data = .ok c') : Overlay cache texts c' u := by
  rcases write_eq_ok hwrite with rfl | ⟨rfl, hnode⟩
  · exact h
  · rw [h.here] at hnode ⊢
    have hchange : ∀ l, l ≠ [] →
        (c.change (endOf u.here path) (some (.file data))).node? l
          = if l = endOf u.here path then some (.file data) else c.node? l :=
      fun l hl => node?_change c _ _ hl
    refine ⟨by simpa using h.here, h.there, fun l hl => ?_, fun l => ?_,
      fun l content hl hcontent => ?_⟩
    · by_cases hroot : l = []
      · subst hroot
        rfl
      · have hne : l ≠ endOf u.here path := by
          rintro rfl
          exact hl hpath
        rw [hchange l hroot, if_neg hne, h.outside l hl]
    · by_cases hroot : l = []
      · subst hroot
        exact Iff.rfl
      · rw [hchange l hroot, ← h.directories l]
        split
        · rename_i hat
          rw [hat]
          simp [hnode]
        · exact Iff.rfl
    · have hroot : l ≠ [] := by
        obtain ⟨entry, rfl⟩ := hl
        simp
      rw [hchange l hroot] at hcontent
      split at hcontent
      · cases hcontent
        exact hdata
      · exact h.stored l content hl hcontent

end Overlay

end Cache

/-! ## 2. The place of a stored form -/

theorem slash_not_mem_base (path : Bytes) :
    Path.slash ∉ Path.base path ∨ Path.base path = [Path.slash] := by
  unfold Path.base
  split
  · exact .inl (by decide)
  · dsimp only
    split
    · exact .inr rfl
    · refine .inl fun hslash => ?_
      have hkept := List.mem_takeWhile_imp (List.mem_reverse.mp hslash)
      simp at hkept

/-- The name of the file with the stored form of a bin. -/
def Library.storedEntry (name : Bytes) : Bytes :=
  (if Path.base name = [Path.slash] then [] else Path.base name) ++ storedExtension

/-- The stored form of a bin is an entry of the cache directory. -/
theorem Library.endOf_storedPath {lib : Library} (hcache : lib.cache ≠ []) (here : List Bytes)
    (name : Bytes) :
    endOf here (lib.storedPath name) = endOf here lib.cache ++ [storedEntry name] := by
  have hextension : Path.slash ∉ storedExtension ∧ storedExtension.length = 4 := by decide +kernel
  have hplain : ∀ (stem : Bytes) (location : List Bytes),
      next location (stem ++ storedExtension) = location ++ [stem ++ storedExtension] := by
    intro stem location
    apply next_of_plain
    all_goals
      intro heq
      have hlength := congrArg List.length heq
      simp [hextension.2] at hlength
  rw [Library.storedPath, endOf_join here hcache, storedEntry]
  split
  · rename_i hbase
    rw [hbase, List.singleton_append, Path.split, if_pos rfl, split_of_slash_not_mem hextension.1]
    exact hplain [] _
  · rename_i hbase
    have hname : Path.slash ∉ Path.base name ++ storedExtension := by
      simp [(slash_not_mem_base name).resolve_right hbase, hextension.1]
    rw [split_of_slash_not_mem hname]
    exact hplain _ _

/-! ## 3. What is found -/

/-- What a bin says of its source. -/
def Bin.content (b : Bin) : Bytes × UInt32 × List Token × SpellingTable :=
  (b.name, b.sourceChecksum, b.tokens, b.table)

/-- The bins of one text under two names differ by their names. -/
theorem Bin.ofSource_renamed {label text : Bytes} {b : Bin} (h : Bin.ofSource label text = .ok b)
    (name : Bytes) :
    b.sourceChecksum = Crc32.checksum text ∧
      ∃ b', Bin.ofSource name text = .ok b' ∧ Bin.content { b with name := name } = b'.content := by
  obtain ⟨script, hread, rfl⟩ := exists_script_of_ofSource h
  refine ⟨rfl, ?_⟩
  rw [Bin.ofSource, hread]
  exact ⟨_, rfl, rfl⟩

/-- A genuine stored form that is short enough gives the bin of the text that it was made from. -/
theorem Cache.Genuine.decode {texts : Bytes → Prop} {data name : Bytes} {b : Bin}
    (h : Genuine texts data) (hsize : data.length < 2 ^ 32)
    (hdecode : Bin.decode name data = .ok b) :
    ∃ text, texts text ∧ b.sourceChecksum = Crc32.checksum text ∧
      ∃ b', Bin.ofSource name text = .ok b' ∧ b.content = b'.content := by
  obtain ⟨text, label, made, order, htext, hmade, hencode⟩ := h
  obtain ⟨data', hencode', -, hback⟩ := Bin.decode_encode order (Bin.storable_of_ofSource hmade)
  rw [hencode] at hencode'
  cases hencode'
  rw [hback hsize name] at hdecode
  cases hdecode
  exact ⟨text, htext, Bin.ofSource_renamed hmade name⟩

namespace Library

open Cache

variable {cache : Bytes} {texts : Bytes → Prop}

/-- The cache is not searched for the source of a bin: no path that is tried ends in it. -/
def SearchesApart (lib : Library) (cache name : Bytes) : Prop :=
  ∀ path ∈ lib.candidates name, ¬ Holds lib.files.here cache (endOf lib.files.here path)

/-- The source of a bin depends on which of the paths that are tried lead to files, and on what is
at the shortest forms of those. -/
theorem source_congr {lib plain : Library} {name : Bytes}
    (hcandidates : lib.candidates name = plain.candidates name)
    (hfile : ∀ path ∈ plain.candidates name, lib.files.isFile path = plain.files.isFile path)
    (hstat : ∀ path ∈ plain.candidates name, plain.files.isFile path →
      lib.files.stat (Path.clean path) = plain.files.stat (Path.clean path)) :
    lib.source name = plain.source name := by
  have hfound : lib.sourcePath? name = plain.sourcePath? name := by
    rw [sourcePath?, sourcePath?, hcandidates, List.find?_congr hfile]
  unfold source
  rw [hfound]
  cases hpath : plain.sourcePath? name with
  | none => rfl
  | some path =>
    obtain ⟨candidate, hcandidate, rfl⟩ := Option.map_eq_some_iff.mp hpath
    simp only [hstat candidate (List.mem_of_find?_eq_some hcandidate) (List.find?_some hcandidate)]

/-- **What is loaded from the cache is what the source would give.** -/
theorem loadStored_content {lib : Library} {u : FileTree} (h : Overlay lib.cache texts lib.files u)
    (htold : Told texts) {name text : Bytes} (htext : texts text) {b : Bin}
    (hload : (lib.loadStored name text).1 = some b) :
    ∃ b', Bin.ofSource name text = .ok b' ∧ b.content = b'.content := by
  obtain ⟨hcache, data, hread, hdecode, hsum⟩ := loadStored_eq_some hload
  have hnode : lib.files.node? (endOf u.here (lib.storedPath name)) = some (.file data) := by
    rw [← h.here]
    refine (eq_of_read? hread).resolve_right ?_
    rintro rfl
    cases hdecode
  have hgenuine := h.stored _ data ⟨_, endOf_storedPath hcache u.here name⟩ hnode
  have hsize : data.length < 2 ^ 32 := by
    obtain ⟨source, label, made, order, hsource, hmade, hencode⟩ := hgenuine
    exact htold.sizes _ _ _ _ _ hsource hmade hencode
  obtain ⟨source, hsource, hsourceSum, b', hb', hcontent⟩ := hgenuine.decode hsize hdecode
  have hsame : source = text := htold.checksums _ _ hsource htext (hsourceSum.symm.trans hsum)
  exact ⟨b', hsame ▸ hb', hcontent⟩

/-- Storing a bin changes the cache only, and puts a genuine file there. -/
theorem store_overlay {lib : Library} {u : FileTree} (h : Overlay lib.cache texts lib.files u)
    {label text : Bytes} (htext : texts text) {b : Bin} (hb : Bin.ofSource label text = .ok b) :
    ∃ files, (lib.store b).1 = { lib with files } ∧ Overlay lib.cache texts files u := by
  unfold store
  split
  · exact ⟨lib.files, rfl, h⟩
  · rename_i hcache
    split
    · exact ⟨lib.files, rfl, h⟩
    · rename_i data hencode
      rw [makeDirectories_of_directory (h.stat_directory_iff.mpr h.there)]
      dsimp only
      split
      · exact ⟨lib.files, rfl, h⟩
      · rename_i files hwrite
        exact ⟨files, rfl, h.write ⟨_, endOf_storedPath hcache u.here b.name⟩
          ⟨text, label, b, lib.order, htext, hb, hencode⟩ hwrite⟩

/-- A library that may use the cache, and one like it that has none. -/
structure Twins (cache : Bytes) (lib plain : Library) : Prop where
  directories : lib.directories = plain.directories
  cache : lib.cache = cache ∨ lib.cache = []
  uncached : plain.cache = []
  bins : lib.bins.map (fun e => (e.1, e.2.content)) = plain.bins.map (fun e => (e.1, e.2.content))

theorem Twins.inMemory? {lib plain : Library} (h : Twins cache lib plain) (name : Bytes) :
    (lib.inMemory? name).map Bin.content = (plain.inMemory? name).map Bin.content := by
  have hlookup : ∀ bins : List (Bytes × Bin),
      (bins.lookup name).map Bin.content
        = (bins.map (fun e => (e.1, e.2.content))).lookup name := by
    intro bins
    induction bins with
    | nil => rfl
    | cons e bins ih =>
      obtain ⟨key, b⟩ := e
      simp only [List.map_cons, List.lookup_cons, ← ih]
      split <;> rfl
  rw [Library.inMemory?, Library.inMemory?, hlookup, hlookup, h.bins]

theorem Twins.remember {lib plain : Library} (h : Twins cache lib plain) (name : Bytes) {b b' : Bin}
    (hb : b.content = b'.content) : Twins cache (lib.remember name b) (plain.remember name b') := by
  have hfilter : ∀ bins : List (Bytes × Bin),
      (bins.filter (·.1 != name)).map (fun e => (e.1, e.2.content))
        = (bins.map (fun e => (e.1, e.2.content))).filter (·.1 != name) := by
    intro bins
    simp [List.filter_map, Function.comp_def]
  refine ⟨h.directories, h.cache, h.uncached, ?_⟩
  simp only [Library.remember, List.map_append, hfilter, h.bins, List.map_cons, hb]

/-- **Twins find the same**, and stay twins. -/
theorem find_twins {lib plain : Library} (htwins : Twins cache lib plain)
    (hfiles : Overlay cache texts lib.files plain.files) (htold : Told texts) {name : Bytes}
    (hapart : plain.SearchesApart cache name)
    (htext : plain.inMemory? name = none → ∀ text, plain.source name = .ok text → texts text) :
    (lib.find name).answer.map Bin.content = (plain.find name).answer.map Bin.content ∧
      Twins cache (lib.find name).library (plain.find name).library ∧
      Overlay cache texts (lib.find name).library.files (plain.find name).library.files := by
  have hmemory := htwins.inMemory? name
  have hsource : lib.source name = plain.source name := by
    refine source_congr ?_ (fun path hpath => hfiles.isFile_eq (hapart path hpath))
      fun path hpath => hfiles.stat_clean_eq (hapart path hpath)
    rw [candidates, candidates, htwins.directories]
  cases hplain : plain.inMemory? name with
  | some b' =>
    rw [hplain] at hmemory
    obtain ⟨b, hb, hcontent⟩ := Option.map_eq_some_iff.mp hmemory
    simp only [find, hb, hplain]
    exact ⟨congrArg Except.ok hcontent, htwins, hfiles⟩
  | none =>
    rw [hplain] at hmemory
    have hnone : lib.inMemory? name = none := Option.map_eq_none_iff.mp hmemory
    cases htexts : plain.source name with
    | error c =>
      simp only [find, hnone, hplain, hsource, htexts]
      exact ⟨trivial, htwins, hfiles⟩
    | ok text =>
      obtain ⟨hfails, hgives⟩ := find_uncached htwins.uncached hplain htexts
      -- Whatever name it was stored under, a form that is accepted was made from this very text.
      have hloaded : ∀ b, (lib.loadStored name text).1 = some b →
          ∃ b', Bin.ofSource name text = .ok b' ∧ b.content = b'.content := by
        intro b hb
        rcases htwins.cache with rfl | hcache
        · exact loadStored_content hfiles htold (htext hplain text htexts) hb
        · rw [loadStored, if_pos hcache] at hb
          cases hb
      have hstored : ∀ b, Bin.ofSource name text = .ok b →
          ∃ files, (lib.store b).1 = { lib with files } ∧
            Overlay cache texts files plain.files := by
        intro b hb
        rcases htwins.cache with rfl | hcache
        · exact store_overlay hfiles (htext hplain text htexts) hb
        · rw [store, if_pos hcache]
          exact ⟨lib.files, rfl, hfiles⟩
      rcases hload : lib.loadStored name text with ⟨_ | b, log⟩
      · cases hread : Bin.ofSource name text with
        | error e =>
          rw [hfails e hread]
          simp only [find, hnone, hsource, htexts, hload, hread]
          exact ⟨trivial, htwins, hfiles⟩
        | ok b =>
          obtain ⟨files, hstore, hoverlay⟩ := hstored b hread
          have hkept : Twins cache { lib with files } plain := { htwins with }
          rw [hgives b hread]
          simp only [find, hnone, hsource, htexts, hload, hread, hstore]
          exact ⟨trivial, hkept.remember name rfl, hoverlay⟩
      · obtain ⟨b', hb', hcontent⟩ := hloaded b (by rw [hload])
        rw [hgives b' hb']
        simp only [find, hnone, hsource, htexts, hload]
        exact ⟨congrArg Except.ok hcontent, htwins.remember name hcontent, hfiles⟩

end Library

/-! ## 4. Histories -/

/-- Files, and the libraries that were opened on them. -/
structure Site where
  files : FileTree
  libraries : List Library

namespace Site

open Cache Library

/-- What can happen at a site. -/
inductive Event where
  /-- A library is opened; it has the cache or none. -/
  | opens (directories : List Bytes) (order : ByteOrder) (cached : Bool)
  /-- A library is asked for a bin. -/
  | finds (index : Nat) (name : Bytes)
  /-- Something else, or nothing, is put at a location. -/
  | changes (location : List Bytes) (node : Option FileNode)

/-- A library of the site, as it sees the files now. -/
def library? (s : Site) (index : Nat) : Option Library :=
  (s.libraries[index]?).map fun lib => { lib with files := s.files }

/-- The site after an event, where the libraries that have a cache have the given one, and what a
library answered. -/
def step (cache : Bytes) (s : Site) : Event → Site × List (Except Error Bin)
  | .opens directories order cached =>
    (⟨s.files, s.libraries ++ [.empty directories (if cached then cache else []) order s.files]⟩,
      [])
  | .finds index name =>
    match s.library? index with
    | none => (s, [])
    | some lib =>
      let found := lib.find name
      (⟨found.library.files, s.libraries.set index found.library⟩, [found.answer])
  | .changes location node => (⟨s.files.change location node, s.libraries⟩, [])

theorem step_finds {cache : Bytes} {s : Site} {index : Nat} {name : Bytes} {lib : Library}
    {found : Found} (hlib : s.library? index = some lib) (hfound : lib.find name = found) :
    s.step cache (.finds index name)
      = (⟨found.library.files, s.libraries.set index found.library⟩, [found.answer]) := by
  simp only [step, hlib, hfound]

/-- What the libraries answer, one event after the other. -/
def answers (cache : Bytes) (s : Site) : List Event → List (Except Error Bin)
  | [] => []
  | event :: events => (s.step cache event).2 ++ (s.step cache event).1.answers cache events

/-- The source texts that an event reads. -/
def textsOf (s : Site) : Event → List Bytes
  | .finds index name =>
    match s.library? index with
    | some lib => if (lib.inMemory? name).isNone then (lib.source name).toOption.toList else []
    | none => []
  | _ => []

/-- The source texts that are read when there is no cache. -/
def texts (s : Site) : List Event → List Bytes
  | [] => []
  | event :: events => s.textsOf event ++ (s.step [] event).1.texts events

/-- An event leaves the cache alone: no library searches it, no file is put there, and the directory
is not taken away. -/
def Apart (cache : Bytes) (s : Site) : Event → Prop
  | .opens _ _ _ => True
  | .finds index name => ∀ lib ∈ s.library? index, lib.SearchesApart cache name
  | .changes location node =>
    (∀ data, node = some (.file data) → ¬ Holds s.files.here cache location) ∧
      (s.files.change location node).stat cache = .ok .directory

/-- All events leave the cache alone, when they happen without one. -/
def AllApart (cache : Bytes) (s : Site) : List Event → Prop
  | [] => True
  | event :: events => s.Apart cache event ∧ (s.step [] event).1.AllApart cache events

/-- Of two sites one has the cache. -/
structure Mirrors (cache : Bytes) (texts : Bytes → Prop) (c u : Site) : Prop where
  files : Overlay cache texts c.files u.files
  length_eq : c.libraries.length = u.libraries.length
  twins : ∀ (index : Nat) (lib plain : Library), c.libraries[index]? = some lib →
    u.libraries[index]? = some plain → Twins cache lib plain

variable {cache : Bytes} {texts : Bytes → Prop} {c u : Site}

/-- A library of one site and that of the other are twins, and there is one if there is the
other. -/
theorem Mirrors.library? (h : Mirrors cache texts c u) (index : Nat) :
    (c.library? index = none ∧ u.library? index = none) ∨
      ∃ lib plain, c.library? index = some lib ∧ u.library? index = some plain ∧
        lib.files = c.files ∧ plain.files = u.files ∧ Twins cache lib plain := by
  have hlength := h.length_eq
  unfold Site.library?
  by_cases hlt : index < u.libraries.length
  · have hlib := List.getElem?_eq_getElem (hlength ▸ hlt)
    have hplain := List.getElem?_eq_getElem hlt
    have htwins := h.twins index _ _ hlib hplain
    rw [hlib, hplain]
    exact .inr ⟨_, _, rfl, rfl, rfl, rfl, { htwins with }⟩
  · rw [List.getElem?_eq_none (by omega), List.getElem?_eq_none (by omega)]
    exact .inl ⟨rfl, rfl⟩

theorem Mirrors.opens (h : Mirrors cache texts c u) (directories : List Bytes) (order : ByteOrder)
    (cached : Bool) :
    Mirrors cache texts (c.step cache (.opens directories order cached)).1
      (u.step [] (.opens directories order cached)).1 := by
  refine ⟨h.files, by simp [Site.step, h.length_eq], fun index lib plain hlib hplain => ?_⟩
  simp only [Site.step, List.getElem?_append, h.length_eq, List.getElem?_singleton] at hlib hplain
  split at hlib
  · rename_i hold
    rw [if_pos hold] at hplain
    exact h.twins index lib plain hlib hplain
  · rename_i hnew
    rw [if_neg hnew] at hplain
    split at hlib
    · rename_i hzero
      rw [if_pos hzero] at hplain
      cases hlib
      cases hplain
      refine ⟨rfl, ?_, by cases cached <;> rfl, rfl⟩
      cases cached <;> simp [Library.empty]
    · cases hlib

theorem Mirrors.finds (h : Mirrors cache texts c u) (htold : Told texts) {index : Nat}
    {name : Bytes} (hapart : u.Apart cache (.finds index name))
    (htexts : ∀ text ∈ u.textsOf (.finds index name), texts text) :
    Mirrors cache texts (c.step cache (.finds index name)).1 (u.step [] (.finds index name)).1 ∧
      (c.step cache (.finds index name)).2.map (·.map Bin.content)
        = (u.step [] (.finds index name)).2.map (·.map Bin.content) := by
  rcases h.library? index with
    ⟨hlib, hplain⟩ | ⟨lib, plain, hlib, hplain, hlibFiles, hplainFiles, htwins⟩
  · simp only [Site.step, hlib, hplain]
    exact ⟨h, trivial⟩
  · have hread : plain.inMemory? name = none → ∀ text, plain.source name = .ok text →
        texts text := by
      intro hmemory text htext
      refine htexts text ?_
      simp [textsOf, hplain, hmemory, htext, Except.toOption]
    have hfiles : Overlay cache texts lib.files plain.files := by
      rw [hlibFiles, hplainFiles]
      exact h.files
    obtain ⟨hanswer, htwins', hfiles'⟩ := find_twins htwins hfiles htold (hapart plain hplain) hread
    rw [step_finds hlib rfl, step_finds hplain rfl]
    refine ⟨⟨hfiles', by simp [h.length_eq], fun i lib' plain' hlib' hplain' => ?_⟩,
      by simp [hanswer]⟩
    simp only [List.getElem?_set, h.length_eq] at hlib' hplain'
    split at hlib'
    · rename_i heq
      rw [if_pos heq] at hplain'
      split at hlib'
      · rename_i hlt
        rw [if_pos hlt] at hplain'
        cases hlib'
        cases hplain'
        exact htwins'
      · cases hlib'
    · rename_i hne
      rw [if_neg hne] at hplain'
      exact h.twins i lib' plain' hlib' hplain'

/-- What happens to both sites keeps them alike, and the answers are the same. -/
theorem Mirrors.step (h : Mirrors cache texts c u) (htold : Told texts) {event : Event}
    (hapart : u.Apart cache event) (htexts : ∀ text ∈ u.textsOf event, texts text) :
    Mirrors cache texts (c.step cache event).1 (u.step [] event).1 ∧
      (c.step cache event).2.map (·.map Bin.content)
        = (u.step [] event).2.map (·.map Bin.content) := by
  cases event with
  | opens directories order cached => exact ⟨h.opens directories order cached, rfl⟩
  | finds index name => exact h.finds htold hapart htexts
  | changes location node =>
    exact ⟨⟨h.files.change location hapart.1 hapart.2, h.length_eq, h.twins⟩, rfl⟩

theorem Mirrors.answers_eq (h : Mirrors cache texts c u) (htold : Told texts) {events : List Event}
    (hapart : u.AllApart cache events) (htexts : ∀ text ∈ u.texts events, texts text) :
    (c.answers cache events).map (·.map Bin.content)
      = (u.answers [] events).map (·.map Bin.content) := by
  induction events generalizing c u with
  | nil => rfl
  | cons event events ih =>
    obtain ⟨hfirst, hrest⟩ := hapart
    obtain ⟨hread, hlater⟩ := List.forall_mem_append.mp htexts
    obtain ⟨hnext, hanswer⟩ := h.step htold hfirst hread
    rw [answers, answers, List.map_append, List.map_append, hanswer, ih hnext hrest hlater]

end Site

/-- **The cache cannot be seen.**  Let libraries be opened, in any byte order and with the cache or
without one, let them be asked for bins, and let files be changed, in any order.  The cache
directory is there and has no files at first; nobody else puts files there or takes it away, and no
path that is tried for a source ends in it.  The source texts that are read without the cache are
told apart by their checksums, and their stored forms are shorter than `2 ^ 32` bytes.  Then the
libraries answer, with the cache and without it, by the same errors and by bins of the same name,
source checksum, tokens and spellings. -/
theorem cache_transparent (cache : Bytes) (files : FileTree) (events : List Site.Event)
    (hthere : files.stat cache = .ok .directory)
    (hempty : ∀ entry data, files.node? (endOf files.here cache ++ [entry]) ≠ some (.file data))
    (hapart : Site.AllApart cache ⟨files, []⟩ events)
    (htold : Cache.Told (· ∈ Site.texts ⟨files, []⟩ events)) :
    (Site.answers cache ⟨files, []⟩ events).map (·.map Bin.content)
      = (Site.answers [] ⟨files, []⟩ events).map (·.map Bin.content) := by
  have hstart :
      Site.Mirrors cache (· ∈ Site.texts ⟨files, []⟩ events) ⟨files, []⟩ ⟨files, []⟩ := by
    refine ⟨⟨rfl, hthere, fun _ _ => rfl, fun _ => Iff.rfl, ?_⟩, rfl, by simp⟩
    rintro _ data ⟨entry, rfl⟩ hdata
    exact absurd hdata (hempty entry data)
  exact hstart.answers_eq htold hapart fun _ htext => htext

/-- Two bins whose stored forms go to one file, in a cache inside the directory that is searched:
what the first library stores in one byte order the second, which stores in the other, loads for
another name, the source of which was put there in between. -/
theorem cache_transparent_shared :
    let source : Bytes := [0x61, 0x2E, 0x63, 0x66, 0x69]
    let cache : Bytes := [0x73, 0x2F, 0x63]
    let files : FileTree := ⟨[([[0x73]], .directory), ([[0x73], source], .file [0x62]),
      ([[0x73], [0x62]], .directory), ([[0x73], [0x63]], .directory)], []⟩
    let events : List Site.Event := [.opens [[0x73]] .little true, .opens [[0x73]] .big true,
      .finds 0 [0x61], .changes [[0x73], [0x62], source] (some (.file [0x62])),
      .finds 1 [0x62, 0x2F, 0x61]]
    files.stat cache = .ok .directory ∧
      (Site.answers cache ⟨files, []⟩ events).map (·.map Bin.content)
        = [.ok ([0x61], Crc32.checksum [0x62], [.lit 1908338681], ⟨[⟨1908338681, [0x62]⟩]⟩),
          .ok ([0x62, 0x2F, 0x61], Crc32.checksum [0x62], [.lit 1908338681],
            ⟨[⟨1908338681, [0x62]⟩]⟩)] := by
  intro source cache files events
  have hread : Script.readFrom 1 [0x62] .empty
      = .ok ([1908338681] ++ [], ⟨[⟨1908338681, [0x62]⟩]⟩) :=
    Script.readFrom_item (by cbv) (by cbv) (Script.readFrom_end (by cbv) _)
  have hbin := fun name => ofSource_of_readFrom name (by decide) hread
  -- What happens without a cache.
  let files' : FileTree := files.change [[0x73], [0x62], source] (some (.file [0x62]))
  let little := Library.empty [[0x73]] [] .little files
  let big := Library.empty [[0x73]] [] .big files
  let bin (name : Bytes) : Bin := ⟨name, Bin.checksumOfName name, Crc32.checksum [0x62],
    ⟨[⟨1908338681, [0x62]⟩]⟩, [.lit 1908338681]⟩
  let after := little.remember [0x61] (bin [0x61])
  let late := { big with files := files' }
  have h1 : Site.step [] ⟨files, []⟩ (.opens [[0x73]] .little true) = (⟨files, [little]⟩, []) := rfl
  have h2 : Site.step [] ⟨files, [little]⟩ (.opens [[0x73]] .big true)
      = (⟨files, [little, big]⟩, []) := rfl
  have h3 : Site.step [] ⟨files, [little, big]⟩ (.finds 0 [0x61])
      = (⟨files, [after, big]⟩, [.ok (bin [0x61])]) :=
    Site.step_finds rfl ((little.find_uncached rfl rfl (by cbv)).2 _ (hbin [0x61]))
  have h4 : Site.step [] ⟨files, [after, big]⟩
      (.changes [[0x73], [0x62], source] (some (.file [0x62])))
      = (⟨files', [after, big]⟩, []) := rfl
  have h5 : Site.step [] ⟨files', [after, big]⟩ (.finds 1 [0x62, 0x2F, 0x61])
      = (⟨files', [after, late.remember [0x62, 0x2F, 0x61] (bin [0x62, 0x2F, 0x61])]⟩,
        [.ok (bin [0x62, 0x2F, 0x61])]) :=
    Site.step_finds rfl ((late.find_uncached rfl rfl (by cbv)).2 _ (hbin _))
  have htexts : Site.texts ⟨files, []⟩ events = [[0x62], [0x62]] := by
    simp only [events, Site.texts, h1, h2, h3, h4]
    cbv
  have hcache : endOf files.here cache = [[0x73], [0x63]] := by cbv
  have hsearch : ∀ lib : Library, lib.directories = [[0x73]] → lib.files.here = [] →
      ∀ name ∈ ([[0x61], [0x62, 0x2F, 0x61]] : List Bytes), lib.SearchesApart cache name := by
    intro lib hlib hhere name hname path hpath hin
    have hends : ∀ name ∈ ([[0x61], [0x62, 0x2F, 0x61]] : List Bytes),
        ∀ path ∈ little.candidates name, (endOf [] path).dropLast ≠ [[0x73], [0x63]] := by
      decide +kernel
    rw [Library.candidates, hlib] at hpath
    obtain ⟨entry, hentry⟩ := hin
    rw [hhere, show endOf [] cache = _ from hcache] at hentry
    exact hends name hname path hpath (by rw [hentry]; rfl)
  have hthere : files.stat cache = .ok .directory := by cbv
  have hkept : files'.stat cache = .ok .directory := by cbv
  refine ⟨hthere, ?_⟩
  rw [cache_transparent cache files events hthere]
  · simp only [events, Site.answers, h1, h2, h3, h4, h5]
    rfl
  · intro entry data
    simp [hcache, FileTree.node?, files, List.lookup_cons]
  · simp only [events, Site.AllApart, h1, h2, h3, h4]
    refine ⟨trivial, trivial, ?_, ⟨?_, hkept⟩, ?_, trivial⟩
    · rintro lib ⟨⟩
      exact hsearch _ rfl rfl _ (by simp)
    · rintro data - ⟨entry, heq⟩
      rw [hcache] at heq
      have hparent := congrArg List.dropLast heq
      rw [List.dropLast_concat] at hparent
      exact absurd hparent (by decide)
    · rintro lib ⟨⟩
      exact hsearch _ rfl rfl _ (by simp)
  · rw [htexts]
    constructor
    · intro a b ha hb _
      simp only [List.mem_cons, List.not_mem_nil, or_false, or_self] at ha hb
      rw [ha, hb]
    · intro text label b order data htext hb hencode
      simp only [List.mem_cons, List.not_mem_nil, or_false, or_self] at htext
      obtain ⟨data', hencode', hlength, -⟩ := Bin.decode_encode order (Bin.storable_of_ofSource hb)
      rw [htext, hbin] at hb
      cases hb
      rw [hencode] at hencode'
      cases hencode'
      simp [hlength, Bin.headerSize, Bin.encodeStrings]

end EffectScript
