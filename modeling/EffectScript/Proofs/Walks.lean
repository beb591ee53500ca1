import EffectScript.Proofs.Simulation
import EffectScript.Storage.FileTree

/-!
# Walks through file trees

Following a path looks at the locations on its way and at nothing else, and where the path ends is
told by its text.  So two trees that agree on the way of a path have the same at its end
(`stat_congr`).  Whether a path can be followed at all is a matter of the directories alone
(`locate_mono`).  Making directories adds directories at the ends of the paths above, where nothing
was (`furnished_makeDirectories`), and writing a file changes the end of its path only
(`write_eq_ok`).  The shortest form of a path ends where the path does (`endOf_clean`), and leads
through nothing else (`wayOf_clean`).
-/

namespace EffectScript.FileTree

/-! ## 1. The way of a path -/

/-- The location that a name leads to. -/
def next (location : List Bytes) (name : Bytes) : List Bytes :=
  if name = [] || name = [Path.dot] then location
  else if name = [Path.dot, Path.dot] then location.dropLast
  else location ++ [name]

/-- The locations that names lead through, the first and the last included. -/
def way (location : List Bytes) : List Bytes → List (List Bytes)
  | [] => [location]
  | name :: names => location :: way (next location name) names

/-- The location at which a path starts. -/
def startOf (here : List Bytes) (path : Bytes) : List Bytes :=
  if Path.isAbsolute path then [] else here

/-- The locations that a path leads through. -/
def wayOf (here : List Bytes) (path : Bytes) : List (List Bytes) :=
  way (startOf here path) (Path.split path)

/-- The location at which a path ends. -/
def endOf (here : List Bytes) (path : Bytes) : List Bytes :=
  (Path.split path).foldl next (startOf here path)

theorem foldl_next_mem_way (names : List Bytes) (location : List Bytes) :
    names.foldl next location ∈ way location names := by
  induction names generalizing location with
  | nil => simp [way]
  | cons name names ih => exact List.mem_cons_of_mem _ (ih (next location name))

theorem start_mem_way (start : List Bytes) (names : List Bytes) : start ∈ way start names := by
  cases names <;> exact List.mem_cons_self

/-- A way goes through the first names, and then on from where they lead. -/
theorem mem_way_append {l start : List Bytes} {names more : List Bytes} :
    l ∈ way start (names ++ more) ↔
      l ∈ way start names ∨ l ∈ way (names.foldl next start) more := by
  induction names generalizing start with
  | nil =>
    have hstart : l = start → l ∈ way start more := by
      rintro rfl
      exact start_mem_way l more
    simpa [way] using hstart
  | cons name names ih =>
    simp only [List.cons_append, way, List.mem_cons, ih, List.foldl_cons, or_assoc]

theorem endOf_mem_wayOf (here : List Bytes) (path : Bytes) : endOf here path ∈ wayOf here path :=
  foldl_next_mem_way _ _

/-- The three kinds of names come together in `next`: no name of at most two bytes is too long. -/
theorem follow_directory {t : FileTree} {location : List Bytes} (name : Bytes) (names : List Bytes)
    (h : t.node? location = some .directory) :
    t.follow location (name :: names)
      = if nameLimit < name.length then .error .tooLong
        else t.follow (next location name) names := by
  simp only [follow, h, next]
  split
  · rename_i hstay
    rw [if_neg]
    simp only [Bool.or_eq_true, decide_eq_true_eq] at hstay
    rcases hstay with rfl | rfl
    all_goals decide
  · split
    · rename_i hup
      rw [if_neg]
      subst hup
      decide
    · rfl

/-- Where following ends is told by the names. -/
theorem eq_of_follow {t : FileTree} {location stop : List Bytes} {names : List Bytes}
    (h : t.follow location names = .ok stop) : stop = names.foldl next location := by
  induction names generalizing location with
  | nil => exact (Except.ok.inj h).symm
  | cons name names ih =>
    cases hnode : t.node? location with
    | none => simp [follow, hnode] at h
    | some node =>
      cases node with
      | file content => simp [follow, hnode] at h
      | device => simp [follow, hnode] at h
      | directory =>
        rw [follow_directory name names hnode] at h
        split at h
        · cases h
        · exact ih h

theorem eq_of_locate {t : FileTree} {path : Bytes} {location : List Bytes}
    (h : t.locate path = .ok location) : location = endOf t.here path := by
  unfold locate at h
  split at h
  · cases h
  · exact eq_of_follow h

/-! ## 2. Trees that agree -/

theorem follow_congr {t u : FileTree} {location : List Bytes} {names : List Bytes}
    (h : ∀ l ∈ way location names, t.node? l = u.node? l) :
    t.follow location names = u.follow location names := by
  induction names generalizing location with
  | nil => rfl
  | cons name names ih =>
    obtain ⟨hlocation, hrest⟩ := List.forall_mem_cons.mp h
    cases hnode : u.node? location with
    | none => simp only [follow, hlocation, hnode]
    | some node =>
      cases node with
      | file content => simp only [follow, hlocation, hnode]
      | device => simp only [follow, hlocation, hnode]
      | directory =>
        rw [follow_directory name names hnode, follow_directory name names (hlocation.trans hnode),
          ih hrest]

/-- **What is at a path is told by what is on its way.** -/
theorem stat_congr {t u : FileTree} {path : Bytes} (hhere : t.here = u.here)
    (h : ∀ l ∈ wayOf t.here path, t.node? l = u.node? l) : t.stat path = u.stat path := by
  have hlocate : t.locate path = u.locate path := by
    unfold locate
    split
    · rfl
    · rw [← hhere]
      exact follow_congr h
  unfold stat
  rw [← hlocate]
  cases hstop : t.locate path with
  | error d => rfl
  | ok stop =>
    have hmem : stop ∈ wayOf t.here path := eq_of_locate hstop ▸ endOf_mem_wayOf _ _
    simp only [h stop hmem]

/-- There is something at a path when the path can be followed and there is something at its end. -/
theorem stat_eq_ok_iff {t : FileTree} {path : Bytes} {node : FileNode} :
    t.stat path = .ok node ↔
      t.locate path = .ok (endOf t.here path) ∧ t.node? (endOf t.here path) = some node := by
  unfold stat
  cases hlocate : t.locate path with
  | error d => simp
  | ok location =>
    rw [← eq_of_locate hlocate]
    cases hnode : t.node? location <;> simp [hnode]

theorem node?_endOf {t : FileTree} {path : Bytes} {node : FileNode} (h : t.stat path = .ok node) :
    t.node? (endOf t.here path) = some node :=
  (stat_eq_ok_iff.mp h).2

theorem isFile_iff {t : FileTree} {path : Bytes} :
    t.isFile path ↔ ∃ node, t.stat path = .ok node ∧ node ≠ .directory := by
  unfold isFile
  cases hstat : t.stat path with
  | error d => simp
  | ok node => cases node <;> simp

/-- A path that can be followed leads through directories, up to its end. -/
theorem directory_of_mem_way {t : FileTree} {location stop l : List Bytes} {names : List Bytes}
    (h : t.follow location names = .ok stop) (hl : l ∈ way location names) :
    t.node? l = some .directory ∨ l = stop := by
  induction names generalizing location with
  | nil =>
    cases h
    exact .inr (List.mem_singleton.mp hl)
  | cons name names ih =>
    cases hnode : t.node? location with
    | none => simp [follow, hnode] at h
    | some node =>
      cases node with
      | file content => simp [follow, hnode] at h
      | device => simp [follow, hnode] at h
      | directory =>
        rw [follow_directory name names hnode] at h
        split at h
        · cases h
        · rcases List.mem_cons.mp hl with rfl | hl
          · exact .inl hnode
          · exact ih h hl

theorem directory_of_mem_wayOf {t : FileTree} {path : Bytes} {node : FileNode} {l : List Bytes}
    (h : t.stat path = .ok node) (hl : l ∈ wayOf t.here path) :
    t.node? l = some .directory ∨ l = endOf t.here path := by
  have hlocate := (stat_eq_ok_iff.mp h).1
  unfold locate at hlocate
  split at hlocate
  · cases hlocate
  · exact directory_of_mem_way hlocate hl

theorem follow_mono {t u : FileTree} {location stop : List Bytes} {names : List Bytes}
    (h : ∀ l, t.node? l = some .directory → u.node? l = some .directory)
    (hfollow : t.follow location names = .ok stop) : u.follow location names = .ok stop := by
  induction names generalizing location with
  | nil => exact hfollow
  | cons name names ih =>
    cases hnode : t.node? location with
    | none => simp [follow, hnode] at hfollow
    | some node =>
      cases node with
      | file content => simp [follow, hnode] at hfollow
      | device => simp [follow, hnode] at hfollow
      | directory =>
        rw [follow_directory name names hnode] at hfollow
        rw [follow_directory name names (h location hnode)]
        split at hfollow
        · cases hfollow
        · rename_i hlength
          rw [if_neg hlength]
          exact ih hfollow

/-- **With more directories, more paths can be followed.** -/
theorem locate_mono {t u : FileTree} {path : Bytes} {stop : List Bytes} (hhere : t.here = u.here)
    (h : ∀ l, t.node? l = some .directory → u.node? l = some .directory)
    (hlocate : t.locate path = .ok stop) : u.locate path = .ok stop := by
  unfold locate at hlocate ⊢
  split at hlocate
  · cases hlocate
  · rw [← hhere]
    exact follow_mono h hlocate

/-- A content that can be read is that of a file at the end of the path, or there is a device. -/
theorem eq_of_read? {t : FileTree} {path content : Bytes} (h : t.read? path = some content) :
    t.node? (endOf t.here path) = some (.file content) ∨ content = [] := by
  unfold read? at h
  split at h
  · rename_i hstat
    cases h
    exact .inl (node?_endOf hstat)
  · cases h
    exact .inr rfl
  · cases h

/-! ## 3. Changes -/

/-- The tree with something else, or nothing, at a location. -/
def change (t : FileTree) (location : List Bytes) : Option FileNode → FileTree
  | some node => t.put location node
  | none => { t with nodes := t.nodes.filter (·.1 != location) }

@[simp] theorem here_change (t : FileTree) (location : List Bytes) (node : Option FileNode) :
    (t.change location node).here = t.here := by
  cases node <;> rfl

/-- The root stays a directory; any other location holds what it is given. -/
theorem node?_change (t : FileTree) (location : List Bytes) (node : Option FileNode)
    {l : List Bytes}
    (hl : l ≠ []) :
    (t.change location node).node? l = if l = location then node else t.node? l := by
  have hself := lookup_filter_self location t.nodes
  cases node with
  | none =>
    simp only [node?, if_neg hl, change]
    split
    · rename_i heq
      rw [heq, hself]
    · rename_i hne
      exact lookup_filter_ne hne t.nodes
  | some node =>
    simp only [node?, if_neg hl, change, put]
    split
    · rename_i heq
      rw [heq, List.lookup_cons_self]
    · rename_i hne
      rw [List.lookup_cons, beq_false_of_ne hne]
      exact lookup_filter_ne hne t.nodes

/-- One tree is the other with directories at some places where nothing was. -/
structure Furnished (places : List (List Bytes)) (t t' : FileTree) : Prop where
  here : t'.here = t.here
  nodes : ∀ l, t'.node? l = t.node? l ∨
    l ∈ places ∧ t.node? l = none ∧ t'.node? l = some .directory

theorem Furnished.refl (places : List (List Bytes)) (t : FileTree) : Furnished places t t :=
  ⟨rfl, fun _ => .inl rfl⟩

theorem Furnished.mono {places places' : List (List Bytes)} {t t' : FileTree}
    (h : Furnished places t t') (hsub : places ⊆ places') : Furnished places' t t' := by
  refine ⟨h.here, fun l => ?_⟩
  rcases h.nodes l with hsame | ⟨hl, hnew⟩
  · exact .inl hsame
  · exact .inr ⟨hsub hl, hnew⟩

theorem Furnished.trans {places : List (List Bytes)} {t t' t'' : FileTree}
    (h : Furnished places t t') (h' : Furnished places t' t'') : Furnished places t t'' := by
  refine ⟨h'.here.trans h.here, fun l => ?_⟩
  rcases h'.nodes l with hsame | ⟨hl, hnone, hnew⟩
  · rw [hsame]
    exact h.nodes l
  · rcases h.nodes l with hsame | ⟨-, -, hmade⟩
    · exact .inr ⟨hl, hsame ▸ hnone, hnew⟩
    · rw [hmade] at hnone
      cases hnone

theorem furnished_makeDirectory {t t' : FileTree} {path : Bytes}
    (h : t.makeDirectory path = .ok t') : Furnished [endOf t.here (withoutTrailing path)] t t' := by
  unfold makeDirectory at h
  split at h
  · cases h
  · split at h
    · cases h
    · rename_i location hlocation
      split at h
      · cases h
      · rename_i hnone
        cases h
        rw [← eq_of_locate hlocation]
        refine ⟨rfl, fun l => ?_⟩
        by_cases hroot : l = []
        · subst hroot
          exact .inl rfl
        · have hnode := node?_change t location (some .directory) hroot
          split at hnode
          · rename_i heq
            subst heq
            exact .inr ⟨List.mem_singleton.mpr rfl, hnone, hnode⟩
          · exact .inl hnode

/-- The locations at which making a directory and those above it may make one. -/
def directoryPlaces (here : List Bytes) (path : Bytes) : List (List Bytes) :=
  (pathsDownTo path).map fun p => endOf here (withoutTrailing p)

theorem mem_pathsDownTo (path : Bytes) : path ∈ pathsDownTo path := by
  unfold pathsDownTo
  split <;> simp

theorem pathsDownTo_subset {path parent : Bytes} (h : parent? path = some parent) :
    pathsDownTo parent ⊆ pathsDownTo path := by
  intro p hp
  rw [pathsDownTo]
  split
  · rename_i above habove
    rw [h] at habove
    cases habove
    exact List.mem_append_left _ hp
  · rename_i hnone
    rw [h] at hnone
    cases hnone

/-- **Making directories adds directories**, at the ends of the path and of those above it. -/
theorem furnished_makeDirectories (t : FileTree) (path : Bytes) :
    Furnished (directoryPlaces t.here path) t (t.makeDirectories path).1 := by
  fun_induction makeDirectories t path
  case case1 => exact .refl _ _
  case case2 => exact .refl _ _
  all_goals
    rename Bytes => path
    rename FileTree × Option Cause => above
    rename above = _ => heq
    rename ∀ _, _ → Furnished _ _ _ => ih
    have habove : Furnished (directoryPlaces t.here path) t above.1 := by
      simp only [above]
      split
      · rename_i parent hparent
        exact (ih parent hparent).mono (List.map_subset _ (pathsDownTo_subset hparent))
      · exact .refl _ _
    rw [heq] at habove
  case case4 hmade =>
    have hlast := furnished_makeDirectory hmade
    rw [habove.here] at hlast
    refine habove.trans (hlast.mono fun l hl => ?_)
    rw [List.mem_singleton.mp hl]
    exact List.mem_map_of_mem (mem_pathsDownTo path)
  all_goals exact habove

/-- A directory that is there is not made. -/
theorem makeDirectories_of_directory {t : FileTree} {path : Bytes}
    (h : t.stat path = .ok .directory) : t.makeDirectories path = (t, none) := by
  unfold makeDirectories
  rw [h]

/-- Writing a file changes a tree at the end of the path only, and never a directory. -/
theorem write_eq_ok {t t' : FileTree} {path content : Bytes} (h : t.write path content = .ok t') :
    t' = t ∨ t' = t.change (endOf t.here path) (some (.file content)) ∧
      t.node? (endOf t.here path) ≠ some .directory := by
  unfold write at h
  dsimp only at h
  split at h
  · cases h
  · rename_i location hlocation
    rw [← eq_of_locate hlocation]
    split at h
    · cases h
    · cases h
      exact .inl rfl
    · rename_i hdirectory _
      cases h
      exact .inr ⟨rfl, hdirectory⟩

/-! ## 4. Shortest forms -/

theorem split_ne_nil (path : Bytes) : Path.split path ≠ [] := by
  fun_cases Path.split path <;> simp

theorem slash_not_mem_split (path : Bytes) : ∀ e ∈ Path.split path, Path.slash ∉ e := by
  fun_induction Path.split path with
  | case1 => simp
  | case2 rest ih => simpa using ih
  | case3 c rest hc hnil ih => exact absurd hnil (split_ne_nil rest)
  | case4 c rest hc element elements heq ih =>
    rw [heq] at ih
    obtain ⟨helement, helements⟩ := List.forall_mem_cons.mp ih
    refine List.forall_mem_cons.mpr ⟨?_, helements⟩
    simp [helement, Ne.symm hc]

theorem split_append_slash (path rest : Bytes) :
    Path.split (path ++ Path.slash :: rest) = Path.split path ++ Path.split rest := by
  fun_induction Path.split path with
  | case1 => simp [Path.split]
  | case2 tail ih => simp [Path.split, ih]
  | case3 c tail hc hnil ih => exact absurd hnil (split_ne_nil tail)
  | case4 c tail hc element elements heq ih =>
    simp only [List.cons_append, Path.split, if_neg hc, ih, heq]

theorem split_of_slash_not_mem {element : Bytes} (h : Path.slash ∉ element) :
    Path.split element = [element] := by
  induction element with
  | nil => rfl
  | cons c rest ih =>
    simp only [List.mem_cons, not_or] at h
    simp only [Path.split, if_neg (Ne.symm h.1), ih h.2]

theorem split_joinWith {elements : List Bytes} (hne : elements ≠ [])
    (h : ∀ e ∈ elements, Path.slash ∉ e) :
    Path.split (Bytes.joinWith [Path.slash] elements) = elements := by
  fun_induction Bytes.joinWith [Path.slash] elements with
  | case1 => exact absurd rfl hne
  | case2 element => exact split_of_slash_not_mem (by simpa using h)
  | case3 element rest hrest ih =>
    obtain ⟨helement, helements⟩ := List.forall_mem_cons.mp h
    rw [List.append_assoc, List.singleton_append, split_append_slash,
      split_of_slash_not_mem helement, ih hrest helements]
    rfl

theorem next_of_plain (location : List Bytes) {name : Bytes} (hempty : name ≠ [])
    (hdot : name ≠ [Path.dot])
    (hdots : name ≠ [Path.dot, Path.dot]) : next location name = location ++ [name] := by
  simp [next, hempty, hdot, hdots]

/-- Elements that are read after the kept ones lead on from where those lead. -/
theorem foldl_reduce {rooted : Bool} {start : List Bytes} (hroot : rooted → start = [])
    (kept names : List Bytes) (hkept : ∀ e ∈ kept, e ≠ [] ∧ e ≠ [Path.dot]) :
    (Path.reduce rooted kept names).foldl next start
      = names.foldl next (kept.reverse.foldl next start) := by
  have hpush : ∀ e kept, ((e :: kept).reverse).foldl next start
      = next (kept.reverse.foldl next start) e := by
    simp [List.foldl_append]
  have hup : [Path.dot, Path.dot] ≠ ([] : Bytes) ∧ [Path.dot, Path.dot] ≠ [Path.dot] := by decide
  fun_induction Path.reduce rooted kept names with
  | case1 kept => rfl
  | case2 kept e rest hstay ih => rw [ih hkept, List.foldl_cons, next, if_pos hstay]
  | case3 rest hrooted _ ih =>
    rw [ih hkept, List.foldl_cons, hroot hrooted]
    rfl
  | case4 rest _ _ ih => rw [ih (by simp), hpush, List.foldl_cons]
  | case5 rest others _ ih =>
    rw [ih (List.forall_mem_cons.mpr ⟨hup, hkept⟩), hpush, List.foldl_cons]
  | case6 rest above others habove _ ih =>
    obtain ⟨⟨hempty, hdot⟩, hothers⟩ := List.forall_mem_cons.mp hkept
    rw [ih hothers, hpush, List.foldl_cons, next_of_plain _ hempty hdot habove]
    simp [next, Path.dot]
  | case7 kept e rest hstay _ ih =>
    simp only [Bool.or_eq_true, decide_eq_true_eq, not_or] at hstay
    rw [ih (List.forall_mem_cons.mpr ⟨hstay, hkept⟩), hpush, List.foldl_cons]

/-- What is left of elements without slashes are elements without slashes, none of them empty. -/
theorem reduce_elements (rooted : Bool) {kept names : List Bytes}
    (hkept : ∀ e ∈ kept, e ≠ [] ∧ Path.slash ∉ e) (hnames : ∀ e ∈ names, Path.slash ∉ e) :
    ∀ e ∈ Path.reduce rooted kept names, e ≠ [] ∧ Path.slash ∉ e := by
  have hup : [Path.dot, Path.dot] ≠ ([] : Bytes) ∧ Path.slash ∉ [Path.dot, Path.dot] := by decide
  fun_induction Path.reduce rooted kept names with
  | case1 kept => simpa using hkept
  | case2 kept e rest _ ih => exact ih hkept (List.forall_mem_cons.mp hnames).2
  | case3 rest _ _ ih => exact ih hkept (List.forall_mem_cons.mp hnames).2
  | case4 rest _ _ ih => exact ih (by simpa using hup) (List.forall_mem_cons.mp hnames).2
  | case5 rest others _ ih =>
    exact ih (List.forall_mem_cons.mpr ⟨hup, hkept⟩) (List.forall_mem_cons.mp hnames).2
  | case6 rest above others _ _ ih =>
    exact ih (List.forall_mem_cons.mp hkept).2 (List.forall_mem_cons.mp hnames).2
  | case7 kept e rest hstay _ ih =>
    obtain ⟨he, hrest⟩ := List.forall_mem_cons.mp hnames
    simp only [Bool.or_eq_true, decide_eq_true_eq, not_or] at hstay
    exact ih (List.forall_mem_cons.mpr ⟨⟨hstay.1, he⟩, hkept⟩) hrest

theorem isAbsolute_joinWith {elements : List Bytes} (h : ∀ e ∈ elements, e ≠ [] ∧ Path.slash ∉ e) :
    Path.isAbsolute (Bytes.joinWith [Path.slash] elements) = false := by
  have hfirst : ∀ e : Bytes, e ≠ [] ∧ Path.slash ∉ e →
      ∀ rest, Path.isAbsolute (e ++ rest) = false := by
    rintro (_ | ⟨c, e⟩) ⟨hempty, hslash⟩ rest
    · exact absurd rfl hempty
    · simp only [List.mem_cons, not_or] at hslash
      simpa [Path.isAbsolute] using Ne.symm hslash.1
  fun_cases Bytes.joinWith [Path.slash] elements with
  | case1 => rfl
  | case2 element => simpa using hfirst element (by simpa using h) []
  | case3 element rest _ =>
    rw [List.append_assoc]
    exact hfirst element (List.forall_mem_cons.mp h).1 _

/-- The shortest form of a path starts where the path does, and its elements are those that are left
of the path, behind some that lead nowhere. -/
theorem split_clean (path : Bytes) :
    Path.isAbsolute (Path.clean path) = Path.isAbsolute path ∧
      ∃ stays : List Bytes, (∀ e ∈ stays, e = [] ∨ e = [Path.dot]) ∧
        Path.split (Path.clean path)
          = stays ++ Path.reduce (Path.isAbsolute path) [] (Path.split path) := by
  have hplain : ∀ e ∈ Path.reduce (Path.isAbsolute path) [] (Path.split path),
      e ≠ [] ∧ Path.slash ∉ e := reduce_elements _ (by simp) (slash_not_mem_split path)
  unfold Path.clean
  generalize Path.reduce (Path.isAbsolute path) [] (Path.split path) = elements at hplain ⊢
  by_cases hne : elements = []
  · subst hne
    cases Path.isAbsolute path with
    | true => exact ⟨rfl, [[], []], by simp, rfl⟩
    | false => exact ⟨rfl, [[Path.dot]], by simp, rfl⟩
  · have hsplit := split_joinWith hne fun e he => (hplain e he).2
    cases Path.isAbsolute path with
    | true =>
      refine ⟨rfl, [[]], by simp, ?_⟩
      simp only [if_true, Path.split, hsplit, List.singleton_append]
    | false =>
      have hsome : Bytes.joinWith [Path.slash] elements ≠ [] := by
        intro hnil
        rw [hnil] at hsplit
        exact (hplain [] (hsplit ▸ List.mem_singleton.mpr rfl)).1 rfl
      simp only [Bool.false_eq_true, if_false, if_neg hsome]
      exact ⟨isAbsolute_joinWith hplain, [], by simp, hsplit⟩

theorem next_of_stay (location : List Bytes) {name : Bytes} (h : name = [] ∨ name = [Path.dot]) :
    next location name = location := by
  simp [next, h]

theorem foldl_next_stays (start : List Bytes) {stays : List Bytes}
    (h : ∀ e ∈ stays, e = [] ∨ e = [Path.dot]) : stays.foldl next start = start := by
  induction stays with
  | nil => rfl
  | cons e stays ih =>
    obtain ⟨he, hrest⟩ := List.forall_mem_cons.mp h
    rw [List.foldl_cons, next_of_stay start he, ih hrest]

theorem eq_of_mem_way_stays {start l : List Bytes} {stays : List Bytes}
    (h : ∀ e ∈ stays, e = [] ∨ e = [Path.dot]) (hl : l ∈ way start stays) : l = start := by
  induction stays with
  | nil => exact List.mem_singleton.mp hl
  | cons e stays ih =>
    obtain ⟨he, hrest⟩ := List.forall_mem_cons.mp h
    rcases List.mem_cons.mp hl with hl | hl
    · exact hl
    · rw [next_of_stay start he] at hl
      exact ih hrest hl

/-- **The shortest form of a path ends where the path ends.** -/
theorem endOf_clean (here : List Bytes) (path : Bytes) :
    endOf here (Path.clean path) = endOf here path := by
  obtain ⟨habsolute, stays, hstays, hsplit⟩ := split_clean path
  rw [endOf, startOf, habsolute, hsplit, List.foldl_append, foldl_next_stays _ hstays]
  refine foldl_reduce (fun hrooted => ?_) [] _ (by simp)
  rw [if_pos hrooted]

/-- What is left of some elements leads through no other locations than they do. -/
theorem way_reduce_subset {rooted : Bool} {start : List Bytes} (hroot : rooted → start = [])
    (kept names : List Bytes) (hkept : ∀ e ∈ kept, e ≠ [] ∧ e ≠ [Path.dot]) :
    way start (Path.reduce rooted kept names) ⊆ way start (kept.reverse ++ names) := by
  have hup : [Path.dot, Path.dot] ≠ ([] : Bytes) ∧ [Path.dot, Path.dot] ≠ [Path.dot] := by decide
  -- An element that is pushed stays in its place between the kept ones and the rest.
  have hpush : ∀ (e : Bytes) (kept rest : List Bytes),
      (e :: kept).reverse ++ rest = kept.reverse ++ e :: rest := by simp
  fun_induction Path.reduce rooted kept names with
  | case1 kept => simp
  | case2 kept e rest hstay ih =>
    simp only [Bool.or_eq_true, decide_eq_true_eq] at hstay
    refine List.Subset.trans (ih hkept) fun l hl => ?_
    refine mem_way_append.mpr ((mem_way_append.mp hl).imp_right fun hl => ?_)
    rw [way, next_of_stay _ hstay]
    exact List.mem_cons_of_mem _ hl
  | case3 rest hrooted _ ih =>
    obtain rfl := hroot hrooted
    exact List.Subset.trans (ih hkept) (List.subset_cons_self _ _)
  | case4 rest _ _ ih => exact ih (List.forall_mem_singleton.mpr hup)
  | case5 rest others _ ih =>
    rw [← hpush]
    exact ih (List.forall_mem_cons.mpr ⟨hup, hkept⟩)
  | case6 rest above others habove _ ih =>
    obtain ⟨⟨hempty, hdot⟩, hothers⟩ := List.forall_mem_cons.mp hkept
    rw [hpush]
    refine List.Subset.trans (ih hothers) fun l hl => ?_
    refine mem_way_append.mpr ((mem_way_append.mp hl).imp_right fun hl => ?_)
    -- The element leads down, and the next one up again.
    have hback : next (next (others.reverse.foldl next start) above) [Path.dot, Path.dot]
        = others.reverse.foldl next start := by
      rw [next_of_plain _ hempty hdot habove]
      simp [next, Path.dot]
    rw [way, way, hback]
    exact List.mem_cons_of_mem _ (List.mem_cons_of_mem _ hl)
  | case7 kept e rest hstay _ ih =>
    simp only [Bool.or_eq_true, decide_eq_true_eq, not_or] at hstay
    rw [← hpush]
    exact ih (List.forall_mem_cons.mpr ⟨hstay, hkept⟩)

/-- **The shortest form of a path leads through no other locations than the path does.** -/
theorem wayOf_clean (here : List Bytes) (path : Bytes) :
    wayOf here (Path.clean path) ⊆ wayOf here path := by
  obtain ⟨habsolute, stays, hstays, hsplit⟩ := split_clean path
  intro l hl
  rw [wayOf, startOf, habsolute, hsplit, mem_way_append, foldl_next_stays _ hstays] at hl
  rcases hl with hl | hl
  · rw [eq_of_mem_way_stays hstays hl]
    exact start_mem_way _ _
  · refine way_reduce_subset (fun hrooted => ?_) [] _ (by simp) hl
    rw [startOf, if_pos hrooted]

theorem endOf_join (here : List Bytes) {directory : Bytes} (hne : directory ≠ []) (name : Bytes) :
    endOf here (Path.join directory name)
      = (Path.split name).foldl next (endOf here directory) := by
  have hstart : startOf here (directory ++ Path.slash :: name) = startOf here directory := by
    cases directory with
    | nil => exact absurd rfl hne
    | cons c rest => rfl
  rw [Path.join, if_neg hne, endOf_clean, endOf, split_append_slash, List.foldl_append,
    hstart, endOf]

end EffectScript.FileTree
