import EffectScript.Proofs.Walks

/-!
# Shortest forms of paths

The shortest form of a path is told by whether the path starts at the root and by the elements that
are left of it, and taking it again changes neither.  So the directory of a path and its last
element make up the shortest form of the path (`Path.join_directory_base`).

A shortest form is made from the text alone, so it may leave out names that are not there: `x/../y`
becomes `y`.  But what a path leads to, its shortest form leads to as well (`FileTree.stat_clean`):
it goes through some of the same locations, and it is no longer than the path.

What is left of the elements of a path is found by reading one after another.  All facts about it
come from the ways in which one element is read (`Path.Reads`).
-/

namespace EffectScript

namespace Path

/-! ## 1. Reading elements -/

/-- The element that takes another one back. -/
def up : Bytes := [dot, dot]

theorem up_eq : up = [dot, dot] := rfl

/-- The kept elements, last first, after one more is read. -/
def push (rooted : Bool) (kept : List Bytes) (element : Bytes) : List Bytes :=
  if element = [] || element = [dot] then kept
  else if element = up then
    match kept with
    | [] => if rooted then [] else [up]
    | above :: others => if above = up then up :: kept else others
  else element :: kept

/-- What is left of elements is what stays when they are read one after another. -/
theorem reduce_eq_foldl (rooted : Bool) (kept names : List Bytes) :
    reduce rooted kept names = (names.foldl (push rooted) kept).reverse := by
  fun_induction reduce rooted kept names with
  | case1 kept => rfl
  | case2 kept e rest hstay ih => rw [ih, List.foldl_cons, push.eq_def, if_pos hstay]
  | case3 rest hrooted _ ih => simpa [push, up, dot, hrooted] using ih
  | case4 rest hrooted _ ih => simpa [push, up, dot, hrooted] using ih
  | case5 rest others _ ih => simpa [push, up, dot] using ih
  | case6 rest above others habove hstay ih =>
    rw [ih, List.foldl_cons, push.eq_def, if_neg hstay, if_pos up_eq.symm]
    simp only [show ¬ above = up from habove, if_false]
  | case7 kept e rest hstay hup ih =>
    rw [ih, List.foldl_cons, push.eq_def, if_neg hstay, if_neg (show ¬ e = up from hup)]

/-- The ways in which an element is read after kept ones. -/
inductive Reads (rooted : Bool) : List Bytes → Bytes → List Bytes → Prop
  | stay {kept : List Bytes} {e : Bytes} (h : e = [] ∨ e = [dot]) : Reads rooted kept e kept
  | atRoot (h : rooted) : Reads rooted [] up []
  | above {kept : List Bytes} (h : kept = [] ∧ rooted = false ∨ ∃ others, kept = up :: others) :
      Reads rooted kept up (up :: kept)
  | back {e : Bytes} {kept : List Bytes} (h : e ≠ up) : Reads rooted (e :: kept) up kept
  | name {kept : List Bytes} {e : Bytes} (hempty : e ≠ []) (hdot : e ≠ [dot]) (hup : e ≠ up) :
      Reads rooted kept e (e :: kept)

theorem reads_push (rooted : Bool) (kept : List Bytes) (e : Bytes) :
    Reads rooted kept e (push rooted kept e) := by
  unfold push
  split
  · rename_i h
    exact .stay (by simpa using h)
  · rename_i h
    simp only [Bool.or_eq_true, decide_eq_true_eq, not_or] at h
    split
    · rename_i hup
      subst hup
      cases kept with
      | nil =>
        cases rooted with
        | true => exact .atRoot rfl
        | false => exact .above (.inl ⟨rfl, rfl⟩)
      | cons above others =>
        dsimp only
        split
        · rename_i habove
          exact .above (.inr ⟨others, by rw [habove]⟩)
        · rename_i habove
          exact .back habove
    · rename_i hup
      exact .name h.1 h.2 hup

theorem Reads.sublist {rooted : Bool} {kept kept' : List Bytes} {e : Bytes}
    (h : Reads rooted kept e kept') : kept'.Sublist (e :: kept) := by
  cases h with
  | stay => exact List.sublist_cons_self _ _
  | atRoot => exact List.nil_sublist _
  | above => exact List.Sublist.refl _
  | back => exact (List.sublist_cons_self _ _).trans (List.sublist_cons_self _ _)
  | name => exact List.Sublist.refl _

/-- Elements that mean nothing are not kept. -/
theorem Reads.plain {rooted : Bool} {kept kept' : List Bytes} {e : Bytes}
    (h : Reads rooted kept e kept') (hkept : ∀ k ∈ kept, k ≠ [] ∧ k ≠ [dot]) :
    ∀ k ∈ kept', k ≠ [] ∧ k ≠ [dot] := by
  cases h with
  | stay => exact hkept
  | atRoot => exact hkept
  | above => exact List.forall_mem_cons.mpr ⟨by decide, hkept⟩
  | back => exact (List.forall_mem_cons.mp hkept).2
  | name hempty hdot => exact List.forall_mem_cons.mpr ⟨⟨hempty, hdot⟩, hkept⟩

/-- What is kept is some of what was read. -/
theorem foldl_push_sublist (rooted : Bool) (kept names : List Bytes) :
    (names.foldl (push rooted) kept).Sublist (names.reverse ++ kept) := by
  induction names generalizing kept with
  | nil => exact List.Sublist.refl _
  | cons e names ih =>
    rw [List.foldl_cons, List.reverse_cons, List.append_assoc]
    exact (ih _).trans ((reads_push rooted kept e).sublist.append_left names.reverse)

/-- Kept elements stay as they are when they are read again. -/
def Kept (rooted : Bool) (kept : List Bytes) : Prop :=
  kept.reverse.foldl (push rooted) [] = kept

theorem Kept.tail {rooted : Bool} {e : Bytes} {kept : List Bytes} (h : Kept rooted (e :: kept))
    (he : e ≠ up) : Kept rooted kept := by
  have hsub := foldl_push_sublist rooted [] kept.reverse
  rw [Kept, List.reverse_cons, List.foldl_append, List.foldl_cons, List.foldl_nil] at h
  rw [List.reverse_reverse, List.append_nil] at hsub
  unfold Kept
  generalize kept.reverse.foldl (push rooted) [] = before at h hsub ⊢
  have hread := reads_push rooted before e
  rw [h] at hread
  generalize hafter : e :: kept = after at hread
  cases hread with
  | stay =>
    subst hafter
    have hlength := hsub.length_le
    simp only [List.length_cons] at hlength
    omega
  | atRoot => exact absurd rfl he
  | above => exact absurd rfl he
  | back => exact absurd rfl he
  | name => exact (List.cons.inj hafter).2.symm

theorem Kept.push {rooted : Bool} {kept : List Bytes} (h : Kept rooted kept) (e : Bytes) :
    Kept rooted (push rooted kept e) := by
  have hmore : Path.push rooted kept e = e :: kept → Kept rooted (e :: kept) := by
    intro heq
    rw [Kept, List.reverse_cons, List.foldl_append, h]
    exact heq
  have hread := reads_push rooted kept e
  generalize hafter : Path.push rooted kept e = after at hread hmore ⊢
  cases hread with
  | stay => exact h
  | atRoot => exact h
  | above => exact hmore rfl
  | back hname => exact h.tail hname
  | name => exact hmore rfl

theorem kept_foldl_push (rooted : Bool) {kept : List Bytes} (h : Kept rooted kept)
    (names : List Bytes) : Kept rooted (names.foldl (push rooted) kept) := by
  induction names generalizing kept with
  | nil => exact h
  | cons e names ih => exact ih (h.push e)

/-! ## 2. The elements of a path -/

/-- The elements of the shortest form of a path. -/
def elements (path : Bytes) : List Bytes := reduce (isAbsolute path) [] (split path)

theorem elements_eq (path : Bytes) :
    elements path = ((split path).foldl (push (isAbsolute path)) []).reverse :=
  reduce_eq_foldl _ _ _

theorem elements_plain (path : Bytes) : ∀ e ∈ elements path, e ≠ [] ∧ slash ∉ e :=
  FileTree.reduce_elements _ (List.forall_mem_nil _) (FileTree.slash_not_mem_split path)

/-- The shortest form is told by where the path starts and by its elements. -/
theorem clean_congr {path path' : Bytes} (hstart : isAbsolute path = isAbsolute path')
    (helements : elements path = elements path') : clean path = clean path' := by
  unfold elements at helements
  unfold clean
  rw [helements, hstart]

/-- The elements of a shortest form are kept when they are read again. -/
theorem foldl_push_elements (path : Bytes) :
    (elements path).foldl (push (isAbsolute path)) [] = (elements path).reverse := by
  have hnone : Kept (isAbsolute path) [] := rfl
  have hkept := kept_foldl_push (isAbsolute path) hnone (split path)
  rw [elements_eq, List.reverse_reverse]
  exact hkept

theorem joinWith_elements_ne_nil {path : Bytes} (h : elements path ≠ []) :
    Bytes.joinWith [slash] (elements path) ≠ [] := by
  intro hjoin
  have hsplit := FileTree.split_joinWith h fun e he => (elements_plain path e he).2
  rw [hjoin] at hsplit
  exact (elements_plain path [] (hsplit ▸ List.mem_singleton.mpr rfl)).1 rfl

/-- How a shortest form is written: from the root, as the place itself, or name by name. -/
theorem clean_cases (path : Bytes) :
    (isAbsolute path ∧ clean path = slash :: Bytes.joinWith [slash] (elements path)) ∨
      (isAbsolute path = false ∧ elements path = [] ∧ clean path = [dot]) ∨
      (isAbsolute path = false ∧ elements path ≠ [] ∧
        clean path = Bytes.joinWith [slash] (elements path)) := by
  have hclean : clean path = if isAbsolute path then slash :: Bytes.joinWith [slash] (elements path)
      else if Bytes.joinWith [slash] (elements path) = [] then [dot]
      else Bytes.joinWith [slash] (elements path) := rfl
  cases hstart : isAbsolute path with
  | true =>
    rw [hstart, if_pos rfl] at hclean
    exact .inl ⟨rfl, hclean⟩
  | false =>
    rw [hstart, if_neg Bool.false_ne_true] at hclean
    by_cases hnil : elements path = []
    · rw [hnil] at hclean
      exact .inr (.inl ⟨rfl, hnil, hclean⟩)
    · rw [if_neg (joinWith_elements_ne_nil hnil)] at hclean
      exact .inr (.inr ⟨rfl, hnil, hclean⟩)

theorem clean_ne_nil (path : Bytes) : clean path ≠ [] := by
  rcases clean_cases path with ⟨-, hclean⟩ | ⟨-, -, hclean⟩ | ⟨-, hne, hclean⟩
  · rw [hclean]
    exact List.cons_ne_nil _ _
  · rw [hclean]
    exact List.cons_ne_nil _ _
  · rw [hclean]
    exact joinWith_elements_ne_nil hne

theorem isAbsolute_clean (path : Bytes) : isAbsolute (clean path) = isAbsolute path := by
  rcases clean_cases path with ⟨hstart, hclean⟩ | ⟨hstart, -, hclean⟩ | ⟨hstart, -, hclean⟩
  · rw [hclean, hstart]
    rfl
  · rw [hclean, hstart]
    rfl
  · rw [hclean, hstart]
    exact FileTree.isAbsolute_joinWith (elements_plain path)

/-- **Taking the shortest form leaves the elements as they are.** -/
theorem elements_clean (path : Bytes) : elements (clean path) = elements path := by
  have hkept := foldl_push_elements path
  have hsplit : elements path ≠ [] →
      split (Bytes.joinWith [slash] (elements path)) = elements path :=
    fun hne => FileTree.split_joinWith hne fun e he => (elements_plain path e he).2
  rw [elements_eq (clean path), isAbsolute_clean]
  rcases clean_cases path with ⟨-, hclean⟩ | ⟨-, hnil, hclean⟩ | ⟨-, hne, hclean⟩
  · rw [hclean, split, if_pos rfl, List.foldl_cons]
    by_cases hnil : elements path = []
    · rw [hnil]
      rfl
    · rw [hsplit hnil]
      exact (congrArg List.reverse hkept).trans (List.reverse_reverse _)
  · rw [hclean, hnil]
    rfl
  · rw [hclean, hsplit hne, hkept, List.reverse_reverse]

/-! ## 3. Directory and last element -/

/-- A path is the text up to its last slash and a name. -/
theorem exists_split_last (path : Bytes) :
    ∃ front name, path = front ++ name ∧ slash ∉ name ∧
      (front = [] ∨ ∃ above, front = above ++ [slash]) ∧
      Bytes.trimRight (· != slash) path = front := by
  refine ⟨Bytes.trimRight (· != slash) path,
    (path.reverse.takeWhile (· != slash)).reverse, ?_, ?_, ?_, rfl⟩
  · rw [Bytes.trimRight, ← List.reverse_append, List.takeWhile_append_dropWhile,
      List.reverse_reverse]
  · intro hmem
    have hkept := List.all_eq_true.mp List.all_takeWhile slash (List.mem_reverse.mp hmem)
    simp at hkept
  · unfold Bytes.trimRight
    cases hdrop : path.reverse.dropWhile (· != slash) with
    | nil => exact .inl rfl
    | cons c above =>
      have hne : path.reverse.dropWhile (· != slash) ≠ [] := by simp [hdrop]
      have hc : c = slash := by simpa [hdrop] using List.head_dropWhile_not (· != slash) hne
      exact .inr ⟨above.reverse, by rw [hc, List.reverse_cons]⟩

/-- A name behind a slash, or alone, is the last element. -/
theorem base_append {front name : Bytes} (hname : slash ∉ name) (hne : name ≠ [])
    (hfront : front = [] ∨ ∃ above, front = above ++ [slash]) : base (front ++ name) = name := by
  have hbyte : ∀ c ∈ name.reverse, (c != slash) = true := by
    intro c hc
    rw [bne_iff_ne]
    rintro rfl
    exact hname (List.mem_reverse.mp hc)
  have hfirst : (front ++ name).reverse.dropWhile (· == slash) = (front ++ name).reverse := by
    obtain ⟨c, rest, hrev⟩ := List.exists_cons_of_ne_nil (List.reverse_ne_nil_iff.mpr hne)
    rw [List.reverse_append, hrev, List.cons_append]
    refine List.dropWhile_cons_of_neg ?_
    have hc := hbyte c (hrev ▸ List.mem_cons_self)
    simpa using hc
  have hlast : (front ++ name).reverse.takeWhile (· != slash) = name.reverse := by
    rw [List.reverse_append, List.takeWhile_append_of_pos hbyte]
    rcases hfront with rfl | ⟨above, rfl⟩
    · simp
    · simp
  unfold base
  rw [if_neg (by simp [hne])]
  simp only [Bytes.trimRight, hfirst, List.reverse_reverse, hlast, hne, if_false]

/-- Before a name, a slash at the end and an empty text tell the same elements. -/
theorem foldl_push_front {front name : Bytes} (hname : slash ∉ name)
    (hfront : front = [] ∨ ∃ above, front = above ++ [slash]) (rooted : Bool) :
    (split (front ++ name)).foldl (push rooted) []
      = push rooted ((split front).foldl (push rooted) []) name := by
  rcases hfront with rfl | ⟨above, rfl⟩
  · rw [List.nil_append, FileTree.split_of_slash_not_mem hname]
    rfl
  · rw [List.append_assoc, List.singleton_append, FileTree.split_append_slash,
      FileTree.split_append_slash, FileTree.split_of_slash_not_mem hname]
    simp only [List.foldl_append]
    rfl

/-- **The directory of a path and its last element make up its shortest form.** -/
theorem join_directory_base {front name : Bytes} (hname : slash ∉ name) (hne : name ≠ [])
    (hfront : front = [] ∨ ∃ above, front = above ++ [slash]) :
    join (clean front) name = clean (front ++ name) := by
  have hstart : isAbsolute (front ++ name) = isAbsolute front := by
    rcases hfront with rfl | ⟨above, rfl⟩
    · obtain ⟨c, rest, rfl⟩ := List.exists_cons_of_ne_nil hne
      simp only [List.mem_cons, not_or] at hname
      simpa [isAbsolute] using Ne.symm hname.1
    · cases above <;> rfl
  have hjoined : isAbsolute (clean front ++ slash :: name) = isAbsolute front := by
    rw [← isAbsolute_clean front]
    obtain ⟨c, rest, hc⟩ := List.exists_cons_of_ne_nil (clean_ne_nil front)
    rw [hc]
    rfl
  rw [join, if_neg (clean_ne_nil front)]
  refine clean_congr (hjoined.trans hstart.symm) ?_
  have hkept := congrArg List.reverse (elements_clean front)
  rw [elements_eq, elements_eq, List.reverse_reverse, List.reverse_reverse, isAbsolute_clean]
    at hkept
  rw [elements_eq, elements_eq, hjoined, hstart, foldl_push_front hname hfront,
    FileTree.split_append_slash, FileTree.split_of_slash_not_mem hname, List.foldl_append, hkept]
  rfl

/-! ## 4. The bytes of a shortest form -/

theorem joinWith_cons (name : Bytes) {names : List Bytes} (h : names ≠ []) :
    Bytes.joinWith [slash] (name :: names) = name ++ ([slash] ++ Bytes.joinWith [slash] names) := by
  rw [Bytes.joinWith, List.append_assoc]
  exact h

theorem joinWith_split (path : Bytes) : Bytes.joinWith [slash] (split path) = path := by
  fun_induction split path with
  | case1 => rfl
  | case2 rest ih => rw [joinWith_cons [] (FileTree.split_ne_nil rest), ih]; rfl
  | case3 c rest hc hnil ih => exact absurd hnil (FileTree.split_ne_nil rest)
  | case4 c rest hc element elements heq ih =>
    rw [heq] at ih
    rw [← ih]
    cases elements <;> rfl

/-- Some of the names, with slashes between them, are some of the bytes. -/
theorem joinWith_sublist {names more : List Bytes} (h : names.Sublist more) :
    (Bytes.joinWith [slash] names).Sublist (Bytes.joinWith [slash] more) := by
  induction h with
  | slnil => exact List.Sublist.refl _
  | @cons names more name h ih =>
    refine ih.trans ?_
    by_cases hmore : more = []
    · rw [hmore]
      exact List.nil_sublist _
    · rw [joinWith_cons name hmore]
      exact (List.sublist_append_right _ _).trans (List.sublist_append_right _ _)
  | @cons_cons names more name h ih =>
    by_cases hmore : more = []
    · rw [hmore] at h ⊢
      obtain rfl := List.sublist_nil.mp h
      exact List.Sublist.refl _
    · by_cases hnames : names = []
      · rw [hnames, joinWith_cons name hmore]
        exact List.sublist_append_left _ _
      · rw [joinWith_cons name hmore, joinWith_cons name hnames]
        exact (ih.append_left _).append_left _

theorem elements_sublist (path : Bytes) : (elements path).Sublist (split path) := by
  have hsub := foldl_push_sublist (isAbsolute path) [] (split path)
  rw [List.append_nil] at hsub
  rw [elements_eq]
  simpa using hsub.reverse

/-- **The shortest form of a path has no bytes of its own**, unless it is the place itself. -/
theorem clean_sublist (path : Bytes) : clean path = [dot] ∨ (clean path).Sublist path := by
  have hsub := elements_sublist path
  rcases clean_cases path with ⟨hstart, hclean⟩ | ⟨-, -, hclean⟩ | ⟨-, -, hclean⟩
  · refine .inr ?_
    obtain ⟨rest, rfl⟩ : ∃ rest, path = slash :: rest := by
      rw [isAbsolute, beq_iff_eq] at hstart
      exact List.head?_eq_some_iff.mp hstart
    -- The empty element in front of the first slash is not kept.
    have hrest : (elements (slash :: rest)).Sublist (split rest) := by
      rw [split, if_pos rfl] at hsub
      generalize hleft : elements (slash :: rest) = left at hsub ⊢
      cases hsub with
      | cons _ h => exact h
      | cons_cons _ h =>
        exact absurd rfl (elements_plain (slash :: rest) [] (hleft ▸ List.mem_cons_self)).1
    rw [hclean]
    refine List.Sublist.cons_cons slash ?_
    have hbytes := joinWith_sublist hrest
    rwa [joinWith_split] at hbytes
  · exact .inl hclean
  · refine .inr ?_
    have hbytes := joinWith_sublist hsub
    rwa [joinWith_split, ← hclean] at hbytes

end Path

/-! ## 5. What a shortest form leads to -/

namespace FileTree

variable {t : FileTree}

theorem pathDefect?_clean {path : Bytes} (h : pathDefect? path = none) :
    pathDefect? (Path.clean path) = none := by
  unfold pathDefect? at h
  split at h
  · cases h
  · split at h
    · cases h
    · rename_i hzero
      split at h
      · cases h
      · rename_i hlong
        rw [List.contains_iff_mem] at hzero
        rcases Path.clean_sublist path with hdot | hsub
        · rw [hdot]
          rfl
        · have hlength := hsub.length_le
          have hmem : (0 : UInt8) ∉ Path.clean path := fun hmem => hzero (hsub.subset hmem)
          rw [pathDefect?, if_neg (Path.clean_ne_nil path), if_neg (by simpa using hmem),
            if_neg (by omega)]

/-- Names lead on from where the names before them lead. -/
theorem follow_append {location : List Bytes} {names more : List Bytes} {stop : List Bytes} :
    t.follow location (names ++ more) = .ok stop ↔
      ∃ middle, t.follow location names = .ok middle ∧ t.follow middle more = .ok stop := by
  induction names generalizing location with
  | nil =>
    rw [List.nil_append]
    constructor
    · exact fun h => ⟨location, rfl, h⟩
    · rintro ⟨middle, ⟨⟩, h⟩
      exact h
  | cons name names ih =>
    cases hnode : t.node? location with
    | none => simp [follow, hnode]
    | some node =>
      cases node with
      | file content => simp [follow, hnode]
      | device => simp [follow, hnode]
      | directory =>
        rw [List.cons_append, follow_directory _ _ hnode, follow_directory _ _ hnode]
        split
        · simp
        · exact ih

/-- A name that leads anywhere does so from a directory. -/
theorem follow_cons {location : List Bytes} {name : Bytes} {names : List Bytes}
    {stop : List Bytes} :
    t.follow location (name :: names) = .ok stop ↔
      t.node? location = some .directory ∧ name.length ≤ nameLimit ∧
        t.follow (next location name) names = .ok stop := by
  constructor
  · intro h
    cases hnode : t.node? location with
    | none => simp [follow, hnode] at h
    | some node =>
      cases node with
      | file content => simp [follow, hnode] at h
      | device => simp [follow, hnode] at h
      | directory =>
        rw [follow_directory _ _ hnode] at h
        split at h
        · cases h
        · rename_i hshort
          exact ⟨rfl, by omega, h⟩
  · rintro ⟨hnode, hshort, h⟩
    rw [follow_directory _ _ hnode, if_neg (by omega)]
    exact h

/-- Reading one more element leads where the element leads. -/
theorem follow_push {rooted : Bool} {start : List Bytes} (hroot : rooted → start = [])
    {kept : List Bytes} {e : Bytes} {stop : List Bytes}
    (hkept : ∀ k ∈ kept, k ≠ [] ∧ k ≠ [Path.dot])
    (h : t.follow start (kept.reverse ++ [e]) = .ok stop) :
    t.follow start (Path.push rooted kept e).reverse = .ok stop := by
  obtain ⟨middle, hmiddle, he⟩ := follow_append.mp h
  obtain ⟨hnode, -, hstop⟩ := follow_cons.mp he
  have hread := Path.reads_push rooted kept e
  generalize Path.push rooted kept e = after at hread ⊢
  cases hread with
  | stay hstay =>
    have hnext : next middle e = middle := by rcases hstay with rfl | rfl <;> rfl
    rw [hnext] at hstop
    cases hstop
    exact hmiddle
  | atRoot hrooted =>
    obtain rfl := hroot hrooted
    cases hmiddle
    exact hstop
  | above => rwa [List.reverse_cons]
  | @back k others hk =>
    -- The element that is taken back was a name, so it led down by one.
    obtain ⟨⟨hempty, hdot⟩, -⟩ := List.forall_mem_cons.mp hkept
    rw [List.reverse_cons] at hmiddle
    obtain ⟨above, habove, hdown⟩ := follow_append.mp hmiddle
    obtain ⟨-, -, hback⟩ := follow_cons.mp hdown
    rw [next_of_plain above hempty hdot hk] at hback
    cases hback
    have hup : next (above ++ [k]) Path.up = above := by simp [next, Path.up, Path.dot]
    rw [hup] at hstop
    cases hstop
    exact habove
  | name => rwa [List.reverse_cons]

/-- **What is left of names leads where the names lead.** -/
theorem follow_foldl_push {rooted : Bool} {start : List Bytes} (hroot : rooted → start = [])
    {kept names : List Bytes} {stop : List Bytes} (hkept : ∀ k ∈ kept, k ≠ [] ∧ k ≠ [Path.dot])
    (h : t.follow start (kept.reverse ++ names) = .ok stop) :
    t.follow start (names.foldl (Path.push rooted) kept).reverse = .ok stop := by
  induction names generalizing kept with
  | nil => rwa [List.append_nil] at h
  | cons e names ih =>
    rw [← List.singleton_append, ← List.append_assoc] at h
    obtain ⟨middle, hmiddle, hrest⟩ := follow_append.mp h
    refine ih ((Path.reads_push rooted kept e).plain hkept) ?_
    exact follow_append.mpr ⟨middle, follow_push hroot hkept hmiddle, hrest⟩

/-- **The shortest form of a path leads where the path leads.** -/
theorem locate_clean {path : Bytes} {stop : List Bytes} (h : t.locate path = .ok stop) :
    t.locate (Path.clean path) = .ok stop := by
  unfold locate at h
  split at h
  · cases h
  · rename_i hdefect
    have hroot : Path.isAbsolute path → (if Path.isAbsolute path then [] else t.here) = [] :=
      fun hstart => if_pos hstart
    have helements : t.follow (if Path.isAbsolute path then [] else t.here) (Path.elements path)
        = .ok stop := by
      rw [Path.elements_eq]
      exact follow_foldl_push hroot (List.forall_mem_nil _) h
    have hsplit : Path.elements path ≠ [] →
        Path.split (Bytes.joinWith [Path.slash] (Path.elements path)) = Path.elements path :=
      fun hne => split_joinWith hne fun e he => (Path.elements_plain path e he).2
    simp only [locate, pathDefect?_clean hdefect, Path.isAbsolute_clean]
    rcases Path.clean_cases path with ⟨hstart, hclean⟩ | ⟨-, hnil, hclean⟩ | ⟨-, hne, hclean⟩
    · rw [hclean, Path.split, if_pos rfl, if_pos hstart]
      rw [if_pos hstart] at helements
      refine follow_cons.mpr ⟨rfl, Nat.zero_le _, ?_⟩
      by_cases hnil : Path.elements path = []
      · rw [hnil] at helements ⊢
        exact follow_cons.mpr ⟨rfl, Nat.zero_le _, helements⟩
      · rw [hsplit hnil]
        exact helements
    · obtain ⟨name, names, hnames⟩ := List.exists_cons_of_ne_nil (split_ne_nil path)
      rw [hnames] at h
      rw [hnil] at helements
      rw [hclean]
      exact follow_cons.mpr ⟨(follow_cons.mp h).1, by decide, helements⟩
    · rw [hclean, hsplit hne]
      exact helements

theorem stat_clean {path : Bytes} {node : FileNode} (h : t.stat path = .ok node) :
    t.stat (Path.clean path) = .ok node := by
  unfold stat at h ⊢
  cases hlocate : t.locate path with
  | error d =>
    rw [hlocate] at h
    cases h
  | ok stop =>
    rw [hlocate] at h
    rw [locate_clean hlocate]
    exact h

end FileTree

end EffectScript
