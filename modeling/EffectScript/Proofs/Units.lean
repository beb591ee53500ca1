import Mathlib.Logic.Function.Iterate
import EffectScript.Proofs.Tiling

/-!
# Hidden units

A scan of any kind goes over a text unit by unit, and finds out at every mark how long the unit is
that starts there.  Here is what these lengths are.

In any text, out of order or not, a unit holds at least the mark that it starts with and ends with
the text at the latest (`hiddenAt_le_sub`).  So a loop over the units comes to the end of the text,
and the visible tokens are the literal ones that it meets (`visible_loop`).

In a well-marked text a unit is a mark with the literal token behind it, or a region.  Units nest,
and a scan may start at one that is inside another.  `UnitAt` says where the units of a text are, at
any depth, and mentions no scan; the length found there is that of the unit, whatever stands around
it (`UnitAt.hiddenAt_eq`), and every mark that hides something starts a unit
(`WellMarked.exists_unitAt`).

Main statement: `marks_algebra`.
-/

namespace EffectScript

/-! ## 1. Units by themselves -/

/-- A stretch that is one hidden unit, whatever follows it. -/
structure HiddenUnit (unit : List Token) : Prop where
  nonempty : unit ≠ []
  length_eq : ∀ rest, hiddenLength (unit ++ rest) = unit.length

theorem HiddenUnit.one (t : Token) : HiddenUnit [.skipOne, t] :=
  ⟨List.cons_ne_nil _ _, fun _ => rfl⟩

theorem HiddenUnit.region {inner : List Token} (h : WellMarked inner) :
    HiddenUnit (.skipOpen :: (inner ++ [.skipClose])) := by
  refine ⟨List.cons_ne_nil _ _, fun rest => ?_⟩
  rw [← region_append, hiddenLength_region h, length_region]

/-! ## 2. The units of a text -/

/-- The text has the hidden unit `unit` at the index `i`, inside `depth` regions. -/
inductive UnitAt : List Token → Nat → Nat → List Token → Prop
  | one (id : TokenId) (rest : List Token) :
      UnitAt (.skipOne :: .lit id :: rest) 0 0 [.skipOne, .lit id]
  | region {inner : List Token} (hinner : WellMarked inner) (rest : List Token) :
      UnitAt (.skipOpen :: (inner ++ .skipClose :: rest)) 0 0 (.skipOpen :: (inner ++ [.skipClose]))
  | inside {inner unit : List Token} {depth i : Nat} (hinner : WellMarked inner)
      (rest : List Token) : UnitAt inner depth i unit →
      UnitAt (.skipOpen :: (inner ++ .skipClose :: rest)) (depth + 1) (i + 1) unit
  | behind {first rest unit : List Token} {depth i : Nat} (hfirst : WellMarked first) :
      UnitAt rest depth i unit → UnitAt (first ++ rest) depth (first.length + i) unit

/-- A unit is a stretch of the text. -/
theorem UnitAt.split {tokens unit : List Token} {depth i : Nat} (h : UnitAt tokens depth i unit) :
    HiddenUnit unit ∧ ∃ before after, tokens = before ++ (unit ++ after) ∧ i = before.length := by
  induction h with
  | one id rest => exact ⟨.one _, [], rest, rfl, rfl⟩
  | region hinner rest => exact ⟨.region hinner, [], rest, region_append _ rest, rfl⟩
  | inside _ rest _ ih =>
    obtain ⟨hunit, before, after, rfl, rfl⟩ := ih
    exact ⟨hunit, .skipOpen :: before, after ++ .skipClose :: rest, by simp, rfl⟩
  | @behind first _ _ _ _ _ _ ih =>
    obtain ⟨hunit, before, after, rfl, rfl⟩ := ih
    exact ⟨hunit, first ++ before, after, by simp, by simp⟩

/-- **The length found at a unit is that of the unit**, at any depth. -/
theorem UnitAt.hiddenAt_eq {tokens unit : List Token} {depth i : Nat}
    (h : UnitAt tokens depth i unit) : hiddenAt tokens i = unit.length := by
  obtain ⟨hunit, before, after, rfl, rfl⟩ := h.split
  rw [hiddenAt_append, hunit.length_eq]

/-- **Every mark that hides something starts a unit.** -/
theorem WellMarked.exists_unitAt {tokens : List Token} (h : WellMarked tokens) {i : Nat}
    {mark : Token} (hmark : mark = .skipOne ∨ mark = .skipOpen) (hi : tokens[i]? = some mark) :
    ∃ depth unit, UnitAt tokens depth i unit := by
  have hlit : ∀ id, mark ≠ .lit id := by
    rintro id rfl
    simp at hmark
  induction h generalizing i with
  | nil => cases hi
  | @lit id rest _ ih =>
    cases i with
    | zero => exact absurd (Option.some.inj hi).symm (hlit id)
    | succ i =>
      obtain ⟨depth, unit, hunit⟩ := ih hi
      have hbehind := UnitAt.behind (.lit id .nil) hunit
      rw [List.length_singleton, Nat.add_comm] at hbehind
      exact ⟨depth, unit, hbehind⟩
  | @one id rest _ ih =>
    rcases i with _ | _ | i
    · exact ⟨0, _, .one id rest⟩
    · exact absurd (Option.some.inj hi).symm (hlit id)
    · obtain ⟨depth, unit, hunit⟩ := ih hi
      have hbehind := UnitAt.behind (.one id .nil) hunit
      rw [Nat.add_comm] at hbehind
      exact ⟨depth, unit, hbehind⟩
  | @region inner rest hinner _ ihinner ihrest =>
    -- The mark opens the region, is inside it, closes it, or is behind it.
    cases i with
    | zero => exact ⟨0, _, .region hinner rest⟩
    | succ i =>
      rw [List.getElem?_cons_succ] at hi
      rcases Nat.lt_trichotomy i inner.length with hlt | rfl | hlt
      · rw [List.getElem?_append_left hlt] at hi
        obtain ⟨depth, unit, hunit⟩ := ihinner hi
        exact ⟨depth + 1, unit, .inside hinner rest hunit⟩
      · rw [List.getElem?_append_right (Nat.le_refl _), Nat.sub_self] at hi
        cases hi
        simp at hmark
      · rw [List.getElem?_append_right (Nat.le_of_lt hlt),
          show i - inner.length = i - inner.length - 1 + 1 by omega, List.getElem?_cons_succ] at hi
        obtain ⟨depth, unit, hunit⟩ := ihrest hi
        have hbehind := UnitAt.behind (.region hinner .nil) hunit
        rw [← region_append, length_region,
          show inner.length + 2 + (i - inner.length - 1) = i + 1 by omega] at hbehind
        exact ⟨depth, unit, hbehind⟩

/-! ## 3. The loop over the units of any text -/

/-- A unit ends with the text at the latest. -/
theorem hiddenAt_le_sub {tokens : List Token} {i : Nat} (h : i < tokens.length) :
    hiddenAt tokens i ≤ tokens.length - i := by
  rcases Nat.eq_zero_or_pos (hiddenAt tokens i) with hzero | hpos
  · omega
  · have hle := hiddenAt_le hpos
    omega

/-- The index at which a loop goes on that is at the index `i`: behind the hidden unit, or behind
the visible token. -/
def unitStop (tokens : List Token) (i : Nat) : Nat := i + max 1 (hiddenAt tokens i)

theorem unitStop_bounds {tokens : List Token} {i : Nat} (h : i < tokens.length) :
    i < unitStop tokens i ∧ unitStop tokens i ≤ tokens.length := by
  have hle := hiddenAt_le_sub h
  unfold unitStop
  omega

/-- What is visible from an index on is the token there if it is a literal one, and what is visible
from where the loop goes on. -/
theorem visible_drop {tokens : List Token} {i : Nat} (h : i < tokens.length) :
    visible (tokens.drop i)
      = unmarked [tokenAt tokens i] ++ visible (tokens.drop (unitStop tokens i)) := by
  have hat : tokenAt tokens i = tokens[i] := by
    rw [tokenAt, if_neg (by omega), Int.toNat_natCast, List.getElem?_eq_getElem h, Option.getD_some]
  have hlength : hiddenAt tokens i = hiddenLength (tokens.drop i) := by
    rw [hiddenAt, if_neg (by omega), Int.toNat_natCast]
  have hdrop : tokens.drop i = tokens[i] :: tokens.drop (i + 1) := List.drop_eq_getElem_cons h
  have hlit : hiddenAt tokens i = 0 ↔ (tokenAt tokens i).isLit = true := hiddenAt_eq_zero_iff
  rw [hat, hlength] at hlit
  rw [hat, unitStop, hlength]
  cases ht : tokens[i] with
  | lit id =>
    rw [hdrop, ht, visible]
    rfl
  | _ =>
    have hpos : 0 < hiddenLength (tokens.drop i) := by
      refine Nat.pos_of_ne_zero fun hzero => ?_
      rw [hlit, ht] at hzero
      cases hzero
    have hmark := visible_mark (congrArg Token.isLit ht) (tokens.drop (i + 1))
    rw [← hdrop] at hmark
    rw [hmark, List.drop_drop,
      show max 1 (hiddenLength (tokens.drop i)) = hiddenLength (tokens.drop i) by omega]
    rfl

/-- **The loop comes to the end of the text**, and the visible tokens are the literal ones that it
meets. -/
theorem visible_loop (tokens : List Token) (i : Nat) (h : i ≤ tokens.length) :
    ∃ n ≤ tokens.length - i, (unitStop tokens)^[n] i = tokens.length ∧
      visible (tokens.drop i) =
        unmarked ((List.range n).map fun k => tokenAt tokens ((unitStop tokens)^[k] i : Nat)) := by
  induction hn : tokens.length - i using Nat.strongRecOn generalizing i with
  | ind _ ih =>
    rcases Nat.lt_or_eq_of_le h with hlt | rfl
    · obtain ⟨hlower, hupper⟩ := unitStop_bounds hlt
      obtain ⟨n, hle, hend, hvisible⟩ := ih _ (by omega) _ hupper rfl
      refine ⟨n + 1, by omega, by rwa [Function.iterate_succ_apply], ?_⟩
      rw [visible_drop hlt, hvisible, List.range_succ_eq_map, List.map_cons, List.map_map]
      simp only [unmarked, ← List.filterMap_append, List.singleton_append, Function.comp_def,
        Function.iterate_succ_apply, Function.iterate_zero, id_eq]
    · refine ⟨0, Nat.zero_le _, rfl, ?_⟩
      rw [List.drop_length, visible]
      rfl

/-! ## 4. The algebra of marks -/

theorem unmarked_append (xs ys : List Token) : unmarked (xs ++ ys) = unmarked xs ++ unmarked ys :=
  List.filterMap_append

/-- Hiding a text loses none of its tokens. -/
theorem unmarked_hide (xs : List Token) : unmarked (hide xs) = unmarked xs := by
  unfold hide
  split
  · rfl
  · rfl
  · simp [unmarked]

/-- **The algebra of skip marks.**  Hiding a well-marked text behind another one is well marked,
shows what was shown before and keeps all tokens; what stands behind a well-marked text is seen as
it is by itself; and the length found at a unit is that of the unit, at any depth.  In any text at
all, a unit ends with the text at the latest, the length is zero just at the literal tokens, and so
the loop that collects the visible tokens comes to an end. -/
theorem marks_algebra (dst toks : List Token) (hdst : WellMarked dst) (htoks : WellMarked toks)
    (x : List Token) :
    WellMarked (dst ++ hide toks) ∧
    visible (dst ++ x) = visible dst ++ visible x ∧
    visible (dst ++ hide toks) = visible dst ∧
    unmarked (dst ++ hide toks) = unmarked dst ++ unmarked toks ∧
    (∀ depth i unit, UnitAt dst depth i unit → hiddenAt dst i = unit.length) ∧
    (∀ (i : Nat) (mark : Token), mark = .skipOne ∨ mark = .skipOpen → dst[i]? = some mark →
      ∃ depth unit, UnitAt dst depth i unit) ∧
    (∀ i < x.length, hiddenAt x i ≤ x.length - i ∧
      (hiddenAt x i = 0 ↔ (tokenAt x i).isLit = true)) ∧
    ∃ n ≤ x.length, (unitStop x)^[n] 0 = x.length ∧
      visible x = unmarked ((List.range n).map fun k => tokenAt x ((unitStop x)^[k] 0 : Nat)) := by
  refine ⟨hdst.append htoks.hide, hdst.visible_append x, ?_, ?_, fun _ _ _ h => h.hiddenAt_eq,
    fun _ _ hmark hi => hdst.exists_unitAt hmark hi,
    fun _ hi => ⟨hiddenAt_le_sub hi, hiddenAt_eq_zero_iff⟩, visible_loop x 0 (Nat.zero_le _)⟩
  · rw [hdst.visible_append, visible_hide htoks, List.append_nil]
  · rw [unmarked_append, unmarked_hide]

/-- A unit inside two regions, a text hidden behind them, and a text with marks out of order. -/
theorem marks_algebra_nested :
    let dst : List Token :=
      [.skipOpen, .lit 44, .skipOpen, .skipOne, .lit 45, .skipClose, .skipClose, .lit 46]
    let toks : List Token := [.skipOne, .lit 45, .lit 44]
    let x : List Token := [.skipClose, .skipOne, .skipOpen, .lit 47, .skipOpen, .lit 44]
    WellMarked dst ∧ WellMarked toks ∧ WellMarked (dst ++ hide toks) ∧
      visible (dst ++ x) = [46, 47] ∧ visible (dst ++ hide toks) = [46] ∧
      unmarked (dst ++ hide toks) = [44, 45, 46, 45, 44] ∧
      UnitAt dst 2 3 [.skipOne, .lit 45] ∧ hiddenAt dst 3 = 2 ∧ hiddenAt x 4 ≤ 2 ∧
      ∃ n ≤ 6, (unitStop x)^[n] 0 = 6 := by
  intro dst toks x
  have hone : WellMarked [.skipOne, .lit 45] := .one 45 .nil
  have hinner : WellMarked [.lit 44, .skipOpen, .skipOne, .lit 45, .skipClose] :=
    .lit 44 (.region hone .nil)
  have hdst : WellMarked dst := .region hinner (.lit 46 .nil)
  have htoks : WellMarked toks := .one 45 (.lit 44 .nil)
  have hunit : UnitAt dst 2 3 [.skipOne, .lit 45] :=
    .inside hinner [.lit 46] (.behind (.lit 44 .nil) (.inside hone [] (.one 45 [])))
  have hshown : visible dst = [46] ∧ visible x = [47] ∧ unmarked dst = [44, 45, 46] := by
    refine ⟨?_, ?_, rfl⟩ <;> simp [dst, x, visible, hiddenLength, regionLength]
  obtain ⟨hhide, happend, hvisible, hunmarked, hlength, -, hbounds, n, hn, hloop, -⟩ :=
    marks_algebra dst toks hdst htoks x
  rw [hshown.1, hshown.2.1] at happend
  rw [hshown.1] at hvisible
  rw [hshown.2.2] at hunmarked
  exact ⟨hdst, htoks, hhide, happend, hvisible, hunmarked, hunit, hlength 2 3 _ hunit,
    (hbounds 4 (by decide)).1, n, hn, hloop⟩

end EffectScript
