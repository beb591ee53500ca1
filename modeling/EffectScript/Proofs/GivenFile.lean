import EffectScript.CommandLine.Run
import EffectScript.Proofs.ShortestForms
import EffectScript.Proofs.Transparency

/-!
# The file that a run is given

A run is given a file and compiles an effect by name: it takes the extension off, and looks for the
name in the directory of the file and then in the include directories.  The directory of the file
and its name lead to the file again (`Run.sibling_own`), so the search ends in that directory, and
the include directories are never looked at.  But it tries the extensions in an order of its own,
and the first file that is there is compiled.

So a run compiles the file that it is given when no file of the same name in the same directory has
an extension that is tried before; and, with a cache, when what the cache has under the name and
with the checksum of the file was made from that very text.  Without the first condition it compiles
the other file (`run_compiles_other_file`).

Main statement: `run_compiles_given_file`.
-/

namespace EffectScript

open FileTree

/-! ## 1. The name of an effect -/

/-- The extensions that the file of an effect can have. -/
def effectExtensions : List Bytes := [".cfi", ".cfx"].map Bytes.ofString

theorem effectExtensions_eq {extension : Bytes} (h : extension ∈ effectExtensions) :
    ∃ rest, extension = Path.dot :: rest ∧ ∀ c ∈ rest, c ≠ Path.dot ∧ c ≠ Path.slash := by
  have hall : ∀ e ∈ effectExtensions, e.head? = some Path.dot ∧
      ∀ c ∈ e.tail, c ≠ Path.dot ∧ c ≠ Path.slash := by decide +kernel
  obtain ⟨hhead, htail⟩ := hall extension h
  obtain ⟨rest, rfl⟩ := List.head?_eq_some_iff.mp hhead
  exact ⟨rest, rfl, htail⟩

theorem stripExtension_append (stem : Bytes) {extension : Bytes}
    (h : extension ∈ effectExtensions) : Path.stripExtension (stem ++ extension) = stem := by
  obtain ⟨rest, rfl, hrest⟩ := effectExtensions_eq h
  have hdrop : (stem ++ Path.dot :: rest).reverse.dropWhile
      (fun c => c != Path.dot && c != Path.slash) = Path.dot :: stem.reverse := by
    rw [List.reverse_append, List.reverse_cons, List.append_assoc, List.dropWhile_append_of_pos]
    · rfl
    · intro c hc
      simpa using hrest c (List.mem_reverse.mp hc)
  unfold Path.stripExtension
  rw [hdrop]
  simp

namespace Run

/-- The file in the directory of a file that has its name and the given extension. -/
def sibling (file extension : Bytes) : Bytes :=
  Path.join (Path.directory file) (effectName file ++ extension)

/-- The name of the effect of a file, behind the directory and in front of the extension. -/
theorem exists_effectName {file stem extension : Bytes} (hfile : file = stem ++ extension)
    (hextension : extension ∈ effectExtensions) :
    ∃ front, file = front ++ (effectName file ++ extension) ∧
      Path.slash ∉ effectName file ++ extension ∧
      (front = [] ∨ ∃ above, front = above ++ [Path.slash]) ∧
      Path.directory file = Path.clean front := by
  obtain ⟨front, last, hlast, hslash, hfront, htrim⟩ := Path.exists_split_last file
  obtain ⟨rest, hrest, hplain⟩ := effectExtensions_eq hextension
  have hnone : Path.slash ∉ extension := by
    rw [hrest]
    rintro (_ | ⟨_, hmem⟩)
    exact (hplain _ hmem).2 rfl
  -- The extension holds no slash, so it belongs to what stands behind the last one.
  obtain ⟨name, hname⟩ : ∃ name, last = name ++ extension := by
    rcases List.append_eq_append_iff.mp (hfile.symm.trans hlast) with ⟨more, hmore, hlast'⟩ |
      ⟨more, -, hmore⟩
    · rcases hfront with rfl | ⟨above, rfl⟩
      · obtain ⟨rfl, rfl⟩ := List.append_eq_nil_iff.mp hmore.symm
        exact ⟨[], hlast'.symm⟩
      · rcases List.eq_nil_or_concat more with rfl | ⟨init, c, rfl⟩
        · exact ⟨[], hlast'.symm⟩
        · rw [List.concat_eq_append, ← List.append_assoc] at hmore
          obtain ⟨-, hc⟩ := List.append_inj' hmore rfl
          refine absurd ?_ hnone
          rw [hlast', List.concat_eq_append, ← hc]
          simp
    · exact ⟨more, hmore⟩
  have hne : last ≠ [] := by
    rw [hname, hrest]
    simp
  have heffect : effectName file = name := by
    rw [effectName, hlast, Path.base_append hslash hne hfront, hname,
      stripExtension_append name hextension]
  rw [heffect, ← hname]
  exact ⟨front, hlast, hslash, hfront, by rw [Path.directory, htrim]⟩

/-- **Directory, name and extension lead to the file again.** -/
theorem sibling_own {file stem extension : Bytes} (hfile : file = stem ++ extension)
    (hextension : extension ∈ effectExtensions) : sibling file extension = Path.clean file := by
  obtain ⟨front, heq, hslash, hfront, hdirectory⟩ := exists_effectName hfile hextension
  have hne : effectName file ++ extension ≠ [] := by
    obtain ⟨rest, hrest, -⟩ := effectExtensions_eq hextension
    simp [hrest]
  rw [sibling, hdirectory, Path.join_directory_base hslash hne hfront, ← heq]

theorem isAbsolute_effectName {file stem extension : Bytes} (hfile : file = stem ++ extension)
    (hextension : extension ∈ effectExtensions) : Path.isAbsolute (effectName file) = false := by
  obtain ⟨front, -, hslash, -⟩ := exists_effectName hfile hextension
  rw [Path.isAbsolute, beq_eq_false_iff_ne]
  intro hhead
  exact hslash (List.mem_append_left _ (List.mem_of_mem_head? hhead))

/-! ## 2. The search for its source -/

section Search

variable {files : FileTree} {o : Options} {file stem extension content : Bytes}

theorem isFile_sibling_own (hstat : files.stat file = .ok (.file content))
    (hfile : file = stem ++ extension) (hextension : extension ∈ effectExtensions) :
    files.isFile (sibling file extension) := by
  rw [sibling_own hfile hextension, isFile, stat_clean hstat]

/-- **The search ends in the directory of the file**, with the first of its siblings that is
there. -/
theorem sourcePath?_library (hstat : files.stat file = .ok (.file content))
    (hfile : file = stem ++ extension) (hextension : extension ∈ effectExtensions) :
    (library files o file).sourcePath? (effectName file)
      = ((sourceExtensions.map (sibling file)).find? files.isFile).map Path.clean := by
  have hcandidates : (library files o file).candidates (effectName file)
      = sourceExtensions.map (sibling file) ++ o.includes.flatMap fun d =>
          sourceExtensions.map fun e => Path.join d (effectName file ++ e) := by
    rw [Library.candidates, isAbsolute_effectName hfile hextension]
    rfl
  have hfound : ((sourceExtensions.map (sibling file)).find? files.isFile).isSome := by
    have hmem : extension ∈ sourceExtensions := List.mem_cons_of_mem _ hextension
    exact List.find?_isSome.mpr ⟨_, List.mem_map_of_mem hmem,
      isFile_sibling_own hstat hfile hextension⟩
  have hfiles : (library files o file).files = files := rfl
  rw [Library.sourcePath?, hcandidates, hfiles, List.find?_append, Option.or_of_isSome hfound]

/-- Without a sibling that is tried before it, the file is the source. -/
theorem source_library (hstat : files.stat file = .ok (.file content))
    (hfile : file = stem ++ extension) (hextension : extension ∈ effectExtensions)
    (hsiblings : ∀ e ∈ sourceExtensions.takeWhile (· != extension),
      files.isFile (sibling file e) = false) :
    (library files o file).source (effectName file) = .ok content := by
  have hown := isFile_sibling_own hstat hfile hextension
  have hbefore : ((sourceExtensions.takeWhile (· != extension)).map (sibling file)).find?
      files.isFile = none := by
    rw [List.find?_eq_none]
    intro path hpath
    obtain ⟨e, he, rfl⟩ := List.mem_map.mp hpath
    simp [hsiblings e he]
  obtain ⟨after, hafter⟩ : ∃ after,
      sourceExtensions.dropWhile (· != extension) = extension :: after := by
    have hall : ∀ e ∈ effectExtensions,
        (sourceExtensions.dropWhile (· != e)).head? = some e := by decide +kernel
    exact List.head?_eq_some_iff.mp (hall extension hextension)
  have hfirst : (sourceExtensions.map (sibling file)).find? files.isFile
      = some (sibling file extension) := by
    rw [← List.takeWhile_append_dropWhile (p := (· != extension)) (l := sourceExtensions),
      List.map_append, List.find?_append, hbefore, hafter, List.map_cons, List.find?_cons, hown]
    rfl
  have hpath := sourcePath?_library (o := o) hstat hfile hextension
  rw [hfirst, Option.map_some, sibling_own hfile hextension] at hpath
  have hclean : (library files o file).files.stat (Path.clean (Path.clean file))
      = .ok (.file content) :=
    stat_clean (stat_clean hstat)
  simp only [Library.source, hpath, hclean]

end Search

end Run

/-! ## 3. What is compiled -/

namespace Library

open Cache

/-- What the cache holds for a name with the checksum of a text was made from that text, and is
short enough to be read back. -/
def StoresTruly (lib : Library) (name text : Bytes) : Prop :=
  lib.cache = [] ∨ ∀ data b, lib.files.read? (lib.storedPath name) = some data →
    Bin.decode name data = .ok b → b.sourceChecksum = Crc32.checksum text →
      Genuine (· = text) data ∧ data.length < 2 ^ 32

/-- **What is found is what reading the source gives**, be it read or loaded from the cache. -/
theorem find_content {lib : Library} {name text : Bytes} (hmemory : lib.inMemory? name = none)
    (hsource : lib.source name = .ok text) (hstored : lib.StoresTruly name text) :
    (lib.find name).answer.map Bin.content = (Bin.ofSource name text).map Bin.content := by
  have hloaded : ∀ b, (lib.loadStored name text).1 = some b →
      ∃ b', Bin.ofSource name text = .ok b' ∧ b.content = b'.content := by
    intro b hload
    obtain ⟨hcache, data, hread, hdecode, hsum⟩ := loadStored_eq_some hload
    obtain ⟨hgenuine, hsize⟩ := hstored.resolve_left hcache data b hread hdecode hsum
    obtain ⟨_, rfl, -, hmade⟩ := hgenuine.decode hsize hdecode
    exact hmade
  unfold find
  rw [hmemory, hsource]
  dsimp only
  rcases hload : lib.loadStored name text with ⟨_ | b, log⟩
  · cases Bin.ofSource name text <;> rfl
  · obtain ⟨b', hb', hcontent⟩ := hloaded b (by rw [hload])
    rw [hb']
    exact congrArg Except.ok hcontent

end Library

namespace Effect

/-- Of a bin, the passes take the name, the tokens and the spellings. -/
theorem ofBin_congr (p : Preprocessor Library) (name : Bytes) {b b' : Bin} (lib : Library)
    (h : b.content = b'.content) : ofBin p name b lib = ofBin p name b' lib := by
  simp only [Bin.content, Prod.mk.injEq] at h
  obtain ⟨hname, -, htokens, htable⟩ := h
  unfold ofBin
  rw [hname, htokens, htable]

/-- An effect whose bin is found is what the passes make of it. -/
theorem compile_of_find {lib : Library} {name : Bytes} {read : Except Error Bin}
    (h : (lib.find name).answer.map Bin.content = read.map Bin.content) (platform : Option Platform)
    (runtime : Bytes → Option Int) (seeds : List Seed) :
    (∀ e, read = .error e → (compile lib platform name runtime seeds).answer = .error e) ∧
      ∀ b, read = .ok b → ∀ p,
        Preprocessor.build platform runtime (some Library.resolver) seeds = .ok p →
          (compile lib platform name runtime seeds).answer
            = (ofBin p name b (lib.find name).library).answer := by
  constructor
  · rintro e rfl
    cases hfound : (lib.find name).answer with
    | ok b =>
      rw [hfound] at h
      cases h
    | error e' =>
      rw [hfound] at h
      cases h
      simp only [compile, hfound]
  · rintro b rfl p hbuild
    cases hfound : (lib.find name).answer with
    | error e' =>
      rw [hfound] at h
      cases h
    | ok b' =>
      rw [hfound] at h
      simp only [compile, hfound, hbuild, ofBin_congr p name _ (Except.ok.inj h)]

end Effect

/-! ## 4. Runs -/

namespace Run

/-- What a run gives when this is what compiling its effect gave. -/
def report (listing : List Bytes → Bytes) (o : Options) (compiled : Compilation) : Outcome :=
  match compiled.answer with
  | .error e => fail compiled.library.files compiled.log (.error e)
  | .ok effect => print listing o compiled.library.files compiled.log effect

theorem withArguments_eq (listing : List Bytes → Bytes) {files : FileTree} {arguments : List Bytes}
    {o : Options} {file : Bytes} {p : Platform} {seeds : List Seed}
    (hread : Options.read .initial arguments = .done o [file]) (hplatform : platform o = .ok p)
    (hseeds : Run.seeds o = .ok seeds) :
    withArguments listing files arguments = report listing o
      (Effect.compile (library files o file) (some p) (effectName file) (fun _ => none) seeds) := by
  simp only [withArguments, hread, onFile, hplatform, hseeds]
  rfl

end Run

/-- **A run compiles the file that it is given, unless another one is tried before it.**  Let the
options be valid, and the file be there and have the extension of an effect.  The source of the
effect is the first file in the same directory that has the name of the given one and no extension,
`.cfi` or `.cfx`, whatever lies in the include directories.  If no such file is tried before the
given one, and if the cache holds nothing false for it, the run reports what both passes make of the
content of the given file. -/
theorem run_compiles_given_file (listing : List Bytes → Bytes) {files : FileTree}
    {arguments : List Bytes} {o : Options} {file : Bytes} {p : Platform} {seeds : List Seed}
    (hread : Options.read .initial arguments = .done o [file])
    (hplatform : Run.platform o = .ok p) (hseeds : Run.seeds o = .ok seeds) {content : Bytes}
    (hstat : files.stat file = .ok (.file content)) {stem extension : Bytes}
    (hfile : file = stem ++ extension) (hextension : extension ∈ effectExtensions) :
    let lib := Run.library files o file
    let name := Run.effectName file
    let compiled := Effect.compile lib (some p) name (fun _ => none) seeds
    Run.withArguments listing files arguments = Run.report listing o compiled ∧
      lib.sourcePath? name
        = ((sourceExtensions.map (Run.sibling file)).find? files.isFile).map Path.clean ∧
      ((∀ e ∈ sourceExtensions.takeWhile (· != extension),
          files.isFile (Run.sibling file e) = false) →
        lib.StoresTruly name content →
        (∀ e, Bin.ofSource name content = .error e → compiled.answer = .error e) ∧
        ∀ b, Bin.ofSource name content = .ok b → ∀ q,
          Preprocessor.build (some p) (fun _ => none) (some Library.resolver) seeds = .ok q →
            compiled.answer = (Effect.ofBin q name b (lib.find name).library).answer) := by
  intro lib name compiled
  refine ⟨Run.withArguments_eq listing hread hplatform hseeds,
    Run.sourcePath?_library hstat hfile hextension, fun hsiblings hstored => ?_⟩
  have hsource : lib.source name = .ok content :=
    Run.source_library hstat hfile hextension hsiblings
  exact Effect.compile_of_find (Library.find_content rfl hsource hstored) _ _ _

/-- A directory with two effects of one name, the one `0` and the other `1`. -/
def twinFiles : FileTree :=
  ⟨[([Bytes.ofString "f.cfi"], .file [0x30]), ([Bytes.ofString "f.cfx"], .file [0x31])], []⟩

/-- The library that is searched for either of them. -/
def twinLibrary : Library := .empty [[Path.dot]] [] .little twinFiles

theorem exists_platform_initial : ∃ p, Run.platform .initial = .ok p := ⟨_, by cbv⟩

theorem exists_bin_zero : ∃ b, Bin.ofSource [0x66] [0x30] = .ok b ∧ b.tokens = [.lit TokenId.zero] ∧
    b.table = .empty := by
  have hread : Script.readFrom 1 [0x30] .empty = .ok ([TokenId.zero] ++ [], .empty) :=
    Script.readFrom_item (by cbv) (by cbv) (Script.readFrom_end (by cbv) _)
  exact exists_bin_of_readFrom [0x66] (by decide) hread

/-- What is compiled from that library is the first of them. -/
theorem report_twinLibrary (listing : List Bytes → Bytes) (p : Platform) :
    (Run.report listing .initial
      (Effect.compile twinLibrary (some p) [0x66] (fun _ => none) [])).output = [0x30] := by
  obtain ⟨b, hb, htokens, htable⟩ := exists_bin_zero
  have hsource : twinLibrary.source [0x66] = .ok [0x30] := by cbv
  have hfound := (Library.find_uncached rfl rfl hsource).2 b hb
  unfold Effect.compile
  rw [hfound]
  obtain ⟨label, labelChecksum, checksum, table, tokens⟩ := b
  obtain rfl : tokens = [.lit TokenId.zero] := htokens
  obtain rfl : table = .empty := htable
  cbv

/-- The first of them is compiled when it is given, with the second one beside it. -/
theorem run_compiles_given_file_first :
    ∃ b compiled q lib, Bin.ofSource [0x66] [0x30] = .ok b ∧
      Run.withArguments List.flatten twinFiles [Bytes.ofString "f.cfi"]
        = Run.report List.flatten .initial compiled ∧
      compiled.answer = (Effect.ofBin q [0x66] b lib).answer ∧
      (Run.report List.flatten .initial compiled).output = [0x30] := by
  obtain ⟨b, hb, -⟩ := exists_bin_zero
  obtain ⟨p, hplatform⟩ := exists_platform_initial
  have hlibrary : Run.library twinFiles .initial (Bytes.ofString "f.cfi") = twinLibrary := by cbv
  have hname : Run.effectName (Bytes.ofString "f.cfi") = [0x66] := by cbv
  have hread : Options.read .initial [Bytes.ofString "f.cfi"]
      = .done .initial [Bytes.ofString "f.cfi"] := by cbv
  have hseeds : Run.seeds .initial = .ok [] := rfl
  have hstat : twinFiles.stat (Bytes.ofString "f.cfi") = .ok (.file [0x30]) := by cbv
  have hfile : Bytes.ofString "f.cfi" = [0x66] ++ Bytes.ofString ".cfi" := by decide
  have halone : ∀ e ∈ sourceExtensions.takeWhile (· != Bytes.ofString ".cfi"),
      twinFiles.isFile (Run.sibling (Bytes.ofString "f.cfi") e) = false := by decide +kernel
  obtain ⟨hrun, -, hown⟩ :=
    run_compiles_given_file List.flatten hread hplatform hseeds hstat hfile (by decide)
  rw [hlibrary, hname] at hrun hown
  have hcompiled := (hown halone (.inl rfl)).2 b hb _ rfl
  exact ⟨b, _, _, _, hb, hrun, hcompiled, report_twinLibrary _ p⟩

/-- **The first of them is compiled when the second one is given.** -/
theorem run_compiles_other_file :
    twinFiles.stat (Bytes.ofString "f.cfx") = .ok (.file [0x31]) ∧
      ∀ listing, (Run.withArguments listing twinFiles [Bytes.ofString "f.cfx"]).output
        = [0x30] := by
  refine ⟨by cbv, fun listing => ?_⟩
  obtain ⟨p, hplatform⟩ := exists_platform_initial
  have hread : Options.read .initial [Bytes.ofString "f.cfx"]
      = .done .initial [Bytes.ofString "f.cfx"] := by cbv
  have hlibrary : Run.library twinFiles .initial (Bytes.ofString "f.cfx") = twinLibrary := by cbv
  have hname : Run.effectName (Bytes.ofString "f.cfx") = [0x66] := by cbv
  rw [Run.withArguments_eq listing hread hplatform rfl, hlibrary, hname]
  exact report_twinLibrary listing p

end EffectScript
