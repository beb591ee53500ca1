import EffectScript.Proofs.Matching

/-!
# A text in front of an index

`Stands` describes an index in a text that is well marked as a whole.  Here only a part of the text
is: an index *faces* some visible tokens when a well-marked part starts at it that shows them and
ends where it is said to end (`Faces`).  Whatever stands in front of the index or behind the part is
arbitrary, and may have its marks out of order.

What is true of the visible tokens then carries over to the tokens: a text that shows an inside of a
group is one (`Grouped.inside`), and the frame of a well-marked part shows what the part shows
(`shows_text`).
-/

namespace EffectScript

/-! ## 1. Well-marked texts and what they show -/

theorem visible_nil : visible [] = [] := by rw [visible]

theorem visible_one (id : TokenId) (rest : List Token) :
    visible (.skipOne :: .lit id :: rest) = visible rest :=
  visible_hide_append (.lit id .nil) rest

/-- A well-marked text is cut in front of any visible token. -/
theorem WellMarked.split {text : List Token} (h : WellMarked text) {xs ys : List TokenId}
    {id : TokenId} (hvisible : visible text = xs ++ id :: ys) :
    ∃ before after, text = before ++ .lit id :: after ∧ WellMarked before ∧ visible before = xs ∧
      WellMarked after ∧ visible after = ys := by
  induction h generalizing xs with
  | nil =>
    rw [visible_nil] at hvisible
    simp at hvisible
  | @lit x rest hrest ih =>
    rw [visible] at hvisible
    cases xs with
    | nil =>
      obtain ⟨rfl, rfl⟩ := List.cons.inj hvisible
      exact ⟨[], rest, rfl, .nil, visible_nil, hrest, rfl⟩
    | cons y xs =>
      obtain ⟨rfl, htail⟩ := List.cons.inj hvisible
      obtain ⟨before, after, rfl, hbefore, rfl, hafter⟩ := ih htail
      exact ⟨.lit x :: before, after, rfl, .lit x hbefore, by rw [visible], hafter⟩
  | @one x rest _ ih =>
    rw [visible_one] at hvisible
    obtain ⟨before, after, rfl, hbefore, rfl, hafter⟩ := ih hvisible
    exact ⟨.skipOne :: .lit x :: before, after, rfl, .one x hbefore, visible_one x before, hafter⟩
  | @region inner rest hinner _ _ ih =>
    rw [visible_region hinner] at hvisible
    obtain ⟨before, after, rfl, hbefore, rfl, hafter⟩ := ih hvisible
    exact ⟨.skipOpen :: (inner ++ .skipClose :: before), after, by simp, .region hinner hbefore,
      visible_region hinner before, hafter⟩

/-- A well-marked text is made of hidden units and of the tokens that it shows. -/
theorem WellMarked.showing {text : List Token} (h : WellMarked text) {p : TokenId → Prop}
    (hp : ∀ id ∈ visible text, p id) : Showing p text := by
  induction h with
  | nil => exact .nil
  | lit id _ ih =>
    rw [visible, List.forall_mem_cons] at hp
    exact .token hp.1 (ih hp.2)
  | one id _ ih =>
    rw [visible_one] at hp
    exact .hidden (.one (.lit id)) (ih hp)
  | @region inner rest hinner _ _ ih =>
    rw [visible_region hinner] at hp
    rw [region_append]
    exact .hidden (.region hinner) (ih hp)

/-- A well-marked text that shows nothing is made of hidden units. -/
theorem WellMarked.showing_false {text : List Token} (h : WellMarked text)
    (hvisible : visible text = []) : Showing (fun _ => False) text :=
  h.showing (by simp [hvisible])

/-- A well-marked text starts with hidden units and the first token that it shows. -/
theorem WellMarked.split_cons {text : List Token} (h : WellMarked text) {ids : List TokenId}
    {id : TokenId} (hvisible : visible text = id :: ids) :
    ∃ gap after, text = gap ++ .lit id :: after ∧ Showing (fun _ => False) gap ∧ WellMarked after ∧
      visible after = ids := by
  obtain ⟨gap, after, rfl, hgap, hnone, hafter⟩ :=
    h.split (show visible text = [] ++ id :: ids from hvisible)
  exact ⟨gap, after, rfl, hgap.showing_false hnone, hafter⟩

/-- A well-marked text that shows a quoted run. -/
theorem WellMarked.split_quoted {text : List Token} (h : WellMarked text) {inner ids : List TokenId}
    (hinner : TokenId.quote ∉ inner)
    (hvisible : visible text = TokenId.quote :: (inner ++ TokenId.quote :: ids)) :
    ∃ gap quoted after, text
      = gap ++ .lit TokenId.quote :: (quoted ++ .lit TokenId.quote :: after) ∧
      Showing (fun _ => False) gap ∧ Showing (· ≠ TokenId.quote) quoted ∧ WellMarked after ∧
      visible after = ids := by
  obtain ⟨gap, behind, rfl, hgap, hbehind, hshown⟩ := h.split_cons hvisible
  obtain ⟨quoted, after, rfl, hquoted, rfl, hafter⟩ := hbehind.split hshown
  exact ⟨gap, quoted, after, rfl, hgap,
    hquoted.showing fun id hid heq => hinner (heq ▸ hid), hafter⟩

theorem Inside.hidden_prepend {opener closer : TokenId} {gap text : List Token}
    (hgap : Showing (fun _ => False) gap) (h : Inside opener closer text) :
    Inside opener closer (gap ++ text) := by
  induction hgap with
  | nil => exact h
  | token hid _ _ => exact hid.elim
  | hidden hunit _ ih =>
    rw [List.append_assoc]
    exact .hidden hunit ih

/-- **A text that shows the inside of a group is one.** -/
theorem Grouped.inside {opener closer : TokenId} {ids : List TokenId}
    (h : Grouped opener closer true ids)
    {text : List Token} (hmarked : WellMarked text) (hvisible : visible text = ids) :
    Inside opener closer text := by
  induction h generalizing text with
  | nil =>
    have hnone :=
      Inside.hidden_prepend (hmarked.showing_false hvisible) (.nil : Inside opener closer [])
    rwa [List.append_nil] at hnone
  | other hopener hcloser hquote _ ih =>
    obtain ⟨gap, after, rfl, hgap, hafter, hshown⟩ := hmarked.split_cons hvisible
    exact .hidden_prepend hgap (.token hopener hcloser (hquote rfl) (ih hafter hshown))
  | quoted _ hinner _ ih =>
    rw [List.cons_append, List.append_assoc, List.singleton_append] at hvisible
    obtain ⟨gap, quoted, after, rfl, hgap, hquoted, hafter, hshown⟩ :=
      hmarked.split_quoted hinner hvisible
    exact .hidden_prepend hgap (.quoted hquoted (ih hafter hshown))
  | group _ _ ihinner ihrest =>
    obtain ⟨gap, behind, rfl, hgap, hbehind, hshown⟩ := hmarked.split_cons hvisible
    obtain ⟨inner, after, rfl, hinner, hshown', hafter, hrest⟩ := hbehind.split hshown
    exact .hidden_prepend hgap (.group (ihinner hinner hshown') (ihrest hafter hrest))

/-- A scan that never ends collects what a well-marked text shows. -/
theorem WellMarked.collects {text tokens : List Token} {last : Int} (h : WellMarked text)
    (ids : List TokenId) :
    Traverses tokens last (fun ids _ t => .next (if t.isLit then t.id :: ids else ids)) ids text
      ((visible text).reverse ++ ids) := by
  induction h generalizing ids with
  | nil =>
    rw [visible_nil]
    exact .nil ids
  | @lit id rest _ ih =>
    have hrest := ih (id :: ids)
    rw [visible, List.reverse_cons, List.append_assoc, List.singleton_append]
    exact .cons (fun _ => rfl) hrest
  | one id _ ih =>
    rw [visible_one]
    exact .hidden (.one (.lit id)) (ih ids)
  | @region inner rest hinner _ _ ih =>
    rw [visible_region hinner, region_append]
    exact .hidden (.region hinner) (ih ids)

/-- **The frame of a well-marked part of a text shows what the part shows.** -/
theorem shows_text {tokens text rest : List Token} {i last : Int} (h : Rest tokens i (text ++ rest))
    (hmarked : WellMarked text) (hne : visible text ≠ []) (hlast : last = i + text.length - 1) :
    (Frame.ofBounds i last).Shows tokens (visible text) := by
  subst hlast
  have hnil : text ≠ [] := by
    rintro rfl
    exact hne visible_nil
  have hpos := List.length_pos_iff.mpr hnil
  have hstart := h.1
  have hlength := h.add_length (by simp [hnil])
  rw [List.length_append] at hlength
  constructor
  · show visibleIds tokens i (i + text.length - 1) = _
    unfold visibleIds
    rw [show min (i + text.length - 1) ((tokens.length : Int) - 1) = i + text.length - 1 by omega,
      show max i 0 = i by omega, hmarked.collects [] i rest h (by omega), scan_end (by omega),
      List.append_nil, List.reverse_reverse]
  · have hnonempty : (Frame.ofBounds i (i + text.length - 1)).isEmpty = false := decide_eq_false (by
      show ¬ i + text.length - 1 < i
      omega)
    simp [hnonempty, hne]

/-! ## 2. Facing some tokens -/

/-- At the index `i` starts a well-marked part of the text that shows `ids` and ends before the
index `stop`. -/
def Faces (tokens : List Token) (i : Int) (ids : List TokenId) (stop : Int) : Prop :=
  ∃ text rest, Rest tokens i (text ++ rest) ∧ WellMarked text ∧ visible text = ids ∧
    i + text.length = stop

namespace Faces

variable {tokens : List Token} {i stop : Int} {id : TokenId} {ids : List TokenId}

theorem nonneg (h : Faces tokens i ids stop) : 0 ≤ i := by
  obtain ⟨text, rest, hrest, -⟩ := h
  exact hrest.1

/-- A visible token takes at least one index. -/
theorem add_length_le (h : Faces tokens i ids stop) : i + ids.length ≤ stop := by
  obtain ⟨text, rest, -, hmarked, rfl, rfl⟩ := h
  have hle := hmarked.length_visible_le
  omega

theorem stop_le_length (h : Faces tokens i (id :: ids) stop) : stop ≤ tokens.length := by
  obtain ⟨text, rest, hrest, hmarked, hvisible, rfl⟩ := h
  have hnil : text ≠ [] := by
    rintro rfl
    rw [visible_nil] at hvisible
    cases hvisible
  have hlength := hrest.add_length (by simp [hnil])
  rw [List.length_append] at hlength
  omega

/-- Behind hidden units. -/
theorem visibleFrom_append {gap rest : List Token} (hgap : Showing (fun _ => False) gap)
    (h : Rest tokens i (gap ++ rest)) :
    visibleFrom tokens i = visibleFrom tokens (i + gap.length) := by
  induction hgap generalizing i with
  | nil => simp
  | token hid _ _ => exact hid.elim
  | @hidden unit gap hunit _ ih =>
    rw [List.append_assoc] at h
    have hlength : hiddenAt tokens i = unit.length := by rw [h.hiddenAt_eq, hunit.length_eq]
    have hpos := List.length_pos_iff.mpr hunit.nonempty
    rw [visibleFrom_of_hidden (by omega), hlength, ih h.append, List.length_append, Int.natCast_add,
      Int.add_assoc]

/-- The part that shows nothing is passed. -/
theorem visibleFrom_eq (h : Faces tokens i [] stop) :
    visibleFrom tokens i = visibleFrom tokens stop := by
  obtain ⟨text, rest, hrest, hmarked, hvisible, rfl⟩ := h
  exact visibleFrom_append (hmarked.showing_false hvisible) hrest

/-- **The first visible token that an index faces**: it is the next visible one, and the index
behind it faces the others. -/
theorem to_visible (h : Faces tokens i (id :: ids) stop) :
    i ≤ visibleFrom tokens i ∧ hiddenAt tokens (visibleFrom tokens i) = 0 ∧
      tokenAt tokens (visibleFrom tokens i) = .lit id ∧
      Faces tokens (visibleFrom tokens i) (id :: ids) stop ∧
      Faces tokens (visibleFrom tokens i + 1) ids stop := by
  obtain ⟨text, rest, hrest, hmarked, hvisible, rfl⟩ := h
  obtain ⟨gap, after, rfl, hgap, hafter, rfl⟩ := hmarked.split_cons hvisible
  rw [List.append_assoc, List.cons_append] at hrest
  have hbehind := hrest.append
  have hzero : hiddenAt tokens (i + gap.length) = 0 := hbehind.hiddenAt_eq
  rw [visibleFrom_append hgap hrest, visibleFrom_of_hiddenAt hzero]
  refine ⟨by omega, hzero, hbehind.tokenAt_eq,
    ⟨.lit id :: after, rest, hbehind, .lit id hafter, ?_, ?_⟩,
    ⟨after, rest, hbehind.tail, hafter, rfl, ?_⟩⟩
  · rw [visible]
  · simp only [List.length_append, List.length_cons]
    omega
  · simp only [List.length_append, List.length_cons]
    omega

/-- An index that faces a visible token and is at one is at that one. -/
theorem at_visible (h : Faces tokens i (id :: ids) stop) (hzero : hiddenAt tokens i = 0) :
    tokenAt tokens i = .lit id ∧ Faces tokens (i + 1) ids stop := by
  obtain ⟨-, -, htoken, -, hbehind⟩ := h.to_visible
  rw [visibleFrom_of_hiddenAt hzero] at htoken hbehind
  exact ⟨htoken, hbehind⟩

/-- The text up to a visible token that an index faces. -/
theorem cut {xs : List TokenId} (h : Faces tokens i (xs ++ id :: ids) stop) :
    ∃ w rest, Rest tokens i (w ++ .lit id :: rest) ∧ WellMarked w ∧ visible w = xs ∧
      Faces tokens (i + w.length + 1) ids stop := by
  obtain ⟨text, rest, hrest, hmarked, hvisible, rfl⟩ := h
  obtain ⟨w, after, rfl, hw, rfl, hafter, rfl⟩ := hmarked.split hvisible
  rw [List.append_assoc, List.cons_append] at hrest
  refine ⟨w, after ++ rest, hrest, hw, rfl, after, rest, hrest.append.tail, hafter, rfl, ?_⟩
  simp only [List.length_append, List.length_cons]
  omega

/-- The frame of one visible token. -/
theorem shows_one (h : Faces tokens i (id :: ids) stop) (hzero : hiddenAt tokens i = 0) :
    (Frame.ofBounds i i).Shows tokens [id] := by
  obtain ⟨htoken, hbehind⟩ := h.at_visible hzero
  have hlt : i < tokens.length := by
    have hle := h.stop_le_length
    have hlength := hbehind.add_length_le
    omega
  obtain ⟨t, rest, hrest⟩ := Rest.exists_cons h.nonneg hlt
  obtain rfl : t = .lit id := hrest.tokenAt_eq.symm.trans htoken
  have hone : visible [Token.lit id] = [id] := by rw [visible, visible_nil]
  have hshows : (Frame.ofBounds i i).Shows tokens (visible [.lit id]) :=
    shows_text (show Rest tokens i ([.lit id] ++ rest) from hrest) (.lit id .nil)
      (by rw [hone]; exact List.cons_ne_nil _ _) (by simp)
  rwa [hone] at hshows

end Faces

/-- Behind the hidden units no other one follows. -/
theorem hiddenAt_visibleFrom (tokens : List Token) (i : Int) :
    hiddenAt tokens (visibleFrom tokens i) = 0 := by
  fun_induction visibleFrom tokens i with
  | case1 i hpos ih => exact ih
  | case2 i hzero => exact Nat.eq_zero_of_not_pos hzero

theorem le_visibleFrom (tokens : List Token) (i : Int) : i ≤ visibleFrom tokens i := by
  fun_induction visibleFrom tokens i with
  | case1 i hpos ih => omega
  | case2 i hzero => exact Int.le_refl i

theorem visibleFrom_visibleFrom (tokens : List Token) (i : Int) :
    visibleFrom tokens (visibleFrom tokens i) = visibleFrom tokens i :=
  visibleFrom_of_hiddenAt (hiddenAt_visibleFrom tokens i)

end EffectScript
