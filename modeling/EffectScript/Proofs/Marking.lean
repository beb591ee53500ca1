import EffectScript.Script.Token

/-!
# Well-marked texts

The functions of `Script/Token` measure hidden units on any list of tokens, also on one whose marks
are out of order.  A text is *well marked* when it is made of units: a literal token, a literal
token behind the mark that hides one token, or a well-marked text between an opening and a closing
mark.

In a well-marked text no mark reaches beyond its end.  So a scan goes over it as a whole
(`regionLength_append`), hiding it gives one unit (`hiddenLength_hide`), the visible tokens of what
is hidden are none (`visible_hide_append`), and a text behind it is seen as it is by itself
(`WellMarked.visible_append`), whatever follows.
-/

namespace EffectScript

/-! ## 1. Texts made of units -/

/-- A text made of units. -/
inductive WellMarked : List Token → Prop
  | nil : WellMarked []
  | lit (id : TokenId) {rest : List Token} : WellMarked rest → WellMarked (.lit id :: rest)
  | one (id : TokenId) {rest : List Token} :
      WellMarked rest → WellMarked (.skipOne :: .lit id :: rest)
  | region {inner rest : List Token} :
      WellMarked inner → WellMarked rest → WellMarked (.skipOpen :: (inner ++ .skipClose :: rest))

/-- Literal tokens by themselves. -/
theorem wellMarked_of_lits {tokens : List Token} (h : ∀ t ∈ tokens, t.isLit) :
    WellMarked tokens := by
  induction tokens with
  | nil => exact .nil
  | cons t rest ih =>
    have hrest := ih fun u hu => h u (List.mem_cons_of_mem _ hu)
    cases t with
    | lit id => exact .lit id hrest
    | skipOne => exact absurd (h _ List.mem_cons_self) (by decide)
    | skipOpen => exact absurd (h _ List.mem_cons_self) (by decide)
    | skipClose => exact absurd (h _ List.mem_cons_self) (by decide)

theorem WellMarked.append {xs ys : List Token} (hx : WellMarked xs) (hy : WellMarked ys) :
    WellMarked (xs ++ ys) := by
  induction hx with
  | nil => exact hy
  | lit id _ ih => exact .lit id ih
  | one id _ ih => exact .one id ih
  | region hinner _ _ ih =>
    rw [List.cons_append, List.append_assoc, List.cons_append]
    exact .region hinner ih

/-- What is hidden is well marked again. -/
theorem WellMarked.hide {xs : List Token} (h : WellMarked xs) : WellMarked (hide xs) := by
  unfold EffectScript.hide
  split
  · exact .nil
  · exact .one _ .nil
  · exact .region h .nil

/-! ## 2. Scanning a well-marked text -/

/-- A region, and what follows it. -/
theorem region_append (inner rest : List Token) :
    Token.skipOpen :: (inner ++ .skipClose :: rest)
      = (.skipOpen :: (inner ++ [.skipClose])) ++ rest := by simp

theorem length_region (inner : List Token) :
    (Token.skipOpen :: (inner ++ [.skipClose])).length = inner.length + 2 := by simp

theorem drop_region (inner rest : List Token) :
    (inner ++ .skipClose :: rest).drop (inner.length + 1) = rest := by
  rw [List.append_cons]
  exact List.drop_left' (by simp)

/-- A scan inside a region goes over a well-marked text as a whole, at any depth. -/
theorem regionLength_append {xs : List Token} (h : WellMarked xs) (depth : Nat)
    (rest : List Token) :
    regionLength depth (xs ++ rest) = xs.length + regionLength depth rest := by
  induction h generalizing depth rest with
  | nil => simp
  | lit id _ ih =>
    rw [List.cons_append, regionLength, ih, List.length_cons]
    omega
  | one id _ ih =>
    rw [List.cons_append, List.cons_append, regionLength, ih]
    simp only [List.length_cons]
    omega
  | region _ _ ihinner ih =>
    rw [List.cons_append, List.append_assoc, List.cons_append, regionLength, ihinner,
      regionLength, ih]
    simp only [List.length_cons, List.length_append]
    omega

/-- The unit at the start of a region around a well-marked text is that region. -/
theorem hiddenLength_region {xs : List Token} (h : WellMarked xs) (rest : List Token) :
    hiddenLength (.skipOpen :: (xs ++ .skipClose :: rest)) = xs.length + 2 := by
  rw [hiddenLength, regionLength_append h, regionLength]

/-- What is hidden is one unit. -/
theorem hiddenLength_hide {xs : List Token} (h : WellMarked xs) (hne : xs ≠ [])
    (rest : List Token) : hiddenLength (hide xs ++ rest) = (hide xs).length := by
  unfold hide
  split
  · exact absurd rfl hne
  · rfl
  · rw [List.cons_append, List.cons_append, List.append_assoc, List.singleton_append,
      hiddenLength_region h]
    simp

/-- Hidden texts start with a mark. -/
theorem hide_cons {xs : List Token} (hne : xs ≠ []) :
    ∃ mark rest, hide xs = mark :: rest ∧ mark.isLit = false := by
  unfold hide
  split
  · exact absurd rfl hne
  · exact ⟨_, _, rfl, rfl⟩
  · exact ⟨_, _, rfl, rfl⟩

/-! ## 3. The visible tokens -/

theorem visible_mark {mark : Token} (h : mark.isLit = false) (rest : List Token) :
    visible (mark :: rest) = visible ((mark :: rest).drop (hiddenLength (mark :: rest))) := by
  cases mark with
  | lit id => cases h
  | skipOne => cases rest <;> rw [visible] <;> simp [hiddenLength]
  | skipOpen => rw [visible] <;> simp [hiddenLength]
  | skipClose => rw [visible] <;> simp [hiddenLength]

/-- What is hidden is not visible. -/
theorem visible_hide_append {xs : List Token} (h : WellMarked xs) (rest : List Token) :
    visible (hide xs ++ rest) = visible rest := by
  by_cases hne : xs = []
  · rw [hne]
    rfl
  · obtain ⟨mark, tail, hhide, hmark⟩ := hide_cons hne
    have hlen := hiddenLength_hide h hne rest
    have hvis := visible_mark hmark (tail ++ rest)
    rw [← List.cons_append, ← hhide, hlen, List.drop_left] at hvis
    exact hvis

theorem visible_hide {xs : List Token} (h : WellMarked xs) : visible (hide xs) = [] := by
  have hvisible := visible_hide_append h []
  rwa [List.append_nil, visible] at hvisible

/-- A region around a well-marked text is not visible. -/
theorem visible_region {xs : List Token} (h : WellMarked xs) (rest : List Token) :
    visible (.skipOpen :: (xs ++ .skipClose :: rest)) = visible rest := by
  rw [visible_mark rfl, hiddenLength_region h, List.drop_succ_cons, drop_region]

/-- The visible tokens of a well-marked text are those before it, then those of what follows. -/
theorem WellMarked.visible_append {xs : List Token} (h : WellMarked xs) (ys : List Token) :
    visible (xs ++ ys) = visible xs ++ visible ys := by
  induction h with
  | nil => rw [List.nil_append, show visible [] = [] by rw [visible], List.nil_append]
  | lit id _ ih => rw [List.cons_append, visible, visible, ih, List.cons_append]
  | one id _ ih =>
    rw [List.cons_append, List.cons_append, visible_mark rfl, visible_mark rfl]
    exact ih
  | region hinner _ _ ih =>
    rw [List.cons_append, List.append_assoc, List.cons_append, visible_region hinner,
      visible_region hinner, ih]

theorem visible_map_lit (ids : List TokenId) : visible (ids.map .lit) = ids := by
  induction ids with
  | nil => rw [List.map_nil, visible]
  | cons id rest ih => rw [List.map_cons, visible, ih]

end EffectScript
