import Mathlib
import EffectScript.Proofs.Moments

/-!
# What undefining a macro does

A first pass has three tables: its own macros, those of the platform, and those of the second pass.
A condition asks all three, a replacement only the first.  A definition outside all conditionals
goes into the first table alone, one inside a conditional into the first and the third, and
undefining takes an id out of one table, the first if it has it.

So an id that was undefined is not replaced until it is defined again.  A condition on it is false
from then on if every definition so far stood outside all conditionals
(`undefine_holds_until_defined`): then there is no second copy to be found.  A definition inside a
conditional leaves one behind (`undefine_inside_leaves_copy`).
-/

namespace EffectScript

variable {σ : Type}

/-! ## 1. Tables -/

theorem MacroTable.defines_eq_false {t : MacroTable} {id : TokenId} :
    t.defines id = false ↔ t.lookup? id = none := by
  simp [defines]

namespace PassState

/-- An id that a first pass undefines is no macro of its own any more. -/
theorem forget_early (s : PassState σ) (id other : TokenId) :
    (s.forget .first id).early.lookup? other
      = if other = id then none else s.early.lookup? other := by
  unfold forget
  split
  · exact s.early.lookup?_erase id other
  · rename_i hnot
    have hnone : s.early.lookup? id = none :=
      MacroTable.defines_eq_false.mp (Bool.eq_false_iff.mpr hnot)
    have hsame : s.early.lookup? other = if other = id then none else s.early.lookup? other := by
      split
      · rename_i heq
        rw [heq, hnone]
      · rfl
    split <;> exact hsame

/-- Undefining gives no macro to the second pass. -/
theorem forget_late {s : PassState σ} {id other : TokenId} (h : s.late.lookup? other = none) :
    (s.forget .first id).late.lookup? other = none := by
  unfold forget
  split
  · exact h
  · split
    · rw [MacroTable.lookup?_erase]
      split
      · rfl
      · exact h
    · exact h

end PassState

/-! ## 2. What a move does to one id -/

/-- The id is defined only outside all conditionals, and never by the late form. -/
def DefinedOutside (id : TokenId) (story : List Event) : Prop :=
  ∀ body late inside, .defined id body late inside ∈ story → late = false ∧ inside = false

theorem DefinedOutside.of_append {id : TokenId} {story more : List Event}
    (h : DefinedOutside id (story ++ more)) : DefinedOutside id story ∧ DefinedOutside id more :=
  ⟨fun body late inside hmem => h body late inside (List.mem_append_left _ hmem),
    fun body late inside hmem => h body late inside (List.mem_append_right _ hmem)⟩

section Moves

variable {around : Surroundings σ} {first : Token} {rest emitted : List Token} {used : Nat}
  {s s' : PassState σ} {id : TokenId}

/-- An id becomes a macro of the first pass only by a definition. -/
theorem Deed.early_none (h : Deed .first first rest s used emitted s')
    (hnever : NeverDefined id (stepEvents first rest emitted s))
    (hs : s.early.lookup? id = none) : s'.early.lookup? id = none := by
  cases h with
  | word hid => exact hs
  | ending => exact hs
  | unit hmark => exact hs
  | hidden branches log env hid hd hwords hused hsettled => exact hs
  | shown branches hid hd hoperand hwords hsettled => exact hs
  | undefine hid =>
    rw [PassState.forget_early]
    split
    · rfl
    · exact hs
  | @define _ name late after _ hid =>
    have hname : id ≠ name := by
      rintro rfl
      refine hnever (bodyOf after) late (!s.branches.isEmpty) ?_
      simp [stepEvents, Token.directive?, hid]
    simp only [PassState.enterMacro]
    split
    · rw [MacroTable.lookup?_define, if_neg hname]
      exact hs
    · exact hs

/-- An id becomes a macro of the second pass only by a late definition or one inside a
conditional. -/
theorem Deed.late_none (h : Deed .first first rest s used emitted s')
    (houtside : DefinedOutside id (stepEvents first rest emitted s))
    (hs : s.late.lookup? id = none) : s'.late.lookup? id = none := by
  cases h with
  | word hid => exact hs
  | ending => exact hs
  | unit hmark => exact hs
  | hidden branches log env hid hd hwords hused hsettled => exact hs
  | shown branches hid hd hoperand hwords hsettled => exact hs
  | undefine hid => exact PassState.forget_late hs
  | @define _ name late after _ hid =>
    simp only [PassState.enterMacro]
    split
    · exact hs
    · rename_i hnot
      have hname : id ≠ name := by
        rintro rfl
        have hplace := houtside (bodyOf after) late (!s.branches.isEmpty)
          (by simp [stepEvents, Token.directive?, hid])
        simp only [Bool.not_eq_false', List.isEmpty_iff] at hplace
        exact hnot ⟨trivial, hplace⟩
      rw [MacroTable.lookup?_define, if_neg hname]
      exact hs

/-- Both facts, for a move. -/
theorem Moves.tables_none (id : TokenId) {a b : Moment σ} {events : List Event}
    {emitted : List Token} (h : Moves around .first a events emitted b) :
    (NeverDefined id events → a.state.early.lookup? id = none → b.state.early.lookup? id = none) ∧
      (DefinedOutside id events → a.state.late.lookup? id = none →
        b.state.late.lookup? id = none) := by
  cases h with
  | next hstep => exact ⟨(step_deed hstep).early_none, (step_deed hstep).late_none⟩
  | enter hstep =>
    obtain ⟨_, _, _, _, -, -, -, -, -, -, -, rfl⟩ := step_eq_enter hstep
    exact ⟨fun _ hs => hs, fun _ hs => hs⟩
  | leave hend => exact ⟨fun _ hs => hs, fun _ hs => hs⟩

/-- **Along a run that never defines an id**, it stays out of the macros of the first pass, -/
theorem Runs.early_none {a b : Moment σ} {story : List Event} {out : List Token}
    (h : Runs around .first a story out b) (hnever : NeverDefined id story)
    (ha : a.state.early.lookup? id = none) : b.state.early.lookup? id = none := by
  refine h.invariant (fun m story _ => NeverDefined id story → m.state.early.lookup? id = none)
    ?_ (fun _ => ha) hnever
  intro a b story events out emitted hm hmove hnever
  obtain ⟨hbefore, hnow⟩ := hnever.of_append
  exact (hmove.tables_none id).1 hnow (hm hbefore)

/-- and along one that defines it only outside, out of those of the second. -/
theorem Runs.late_none {a b : Moment σ} {story : List Event} {out : List Token}
    (h : Runs around .first a story out b) (houtside : DefinedOutside id story)
    (ha : a.state.late.lookup? id = none) : b.state.late.lookup? id = none := by
  refine h.invariant (fun m story _ => DefinedOutside id story → m.state.late.lookup? id = none)
    ?_ (fun _ => ha) houtside
  intro a b story events out emitted hm hmove houtside
  obtain ⟨hbefore, hnow⟩ := houtside.of_append
  exact (hmove.tables_none id).2 hnow (hm hbefore)

/-- What is noticed of undefining an id is noticed of nothing else. -/
theorem stepEvents_eq_undefined (h : stepEvents first rest emitted s = [.undefined id]) :
    first.directive? = some .undefine ∧ ∃ name after, rest = name :: after ∧ name.id = id := by
  unfold stepEvents at h
  split at h
  · cases h
  · rename_i name after hfirst
    cases h
    exact ⟨hfirst, name, after, rfl, rfl⟩
  · rw [List.map_eq_singleton_iff] at h
    obtain ⟨_, -, hshown⟩ := h
    cases hshown

/-- After a move that undefines it, an id is no macro of the first pass. -/
theorem Moves.undefined_early {a b : Moment σ} {events : List Event} {emitted : List Token}
    (h : Moves around .first a events emitted b) (hevents : events = [.undefined id]) :
    b.state.early.lookup? id = none := by
  cases h with
  | next hstep =>
    obtain ⟨hfirst, name, after, rfl, rfl⟩ := stepEvents_eq_undefined hevents
    cases step_deed hstep with
    | undefine hid => rw [PassState.forget_early, if_pos rfl]
    | word hid =>
      simp only [Token.directive?] at hfirst
      simp [TokenId.isOrdinary, hfirst] at hid
    | ending => cases hfirst
    | unit hmark =>
      rename_i mark _ _
      cases mark with
      | lit id => cases hmark
      | skipOne => cases hfirst
      | skipOpen => cases hfirst
      | skipClose => cases hfirst
    | define hid =>
      rw [Token.directive?, hid] at hfirst
      cases hfirst
    | hidden branches log env hid hd hwords hused hsettled =>
      rw [Token.directive?, hid] at hfirst
      cases hfirst
      cases hd
    | shown branches hid hd hoperand hwords hsettled =>
      rw [Token.directive?, hid] at hfirst
      cases hfirst
      cases hd
  | enter hstep => cases hevents
  | leave hend => cases hevents

end Moves

/-! ## 3. Until the next definition -/

/-- The value of a condition that is one name. -/
theorem evaluate_name (scope : Scope) (o : Operand) (index : Nat) {after : List Token}
    (hafter : startsWithSign after = false) :
    (evaluate scope index (.lit o.id :: after)).value
      = .ok (scope.defines o.id || o.id = TokenId.one) := by
  have hfits : (Condition.last (.operand false o)).Fits :=
    ⟨show max 1 0 ≤ 64 by decide, show 0 < 64 by decide⟩
  have h := evaluate_render scope hfits index hafter
  have hrender : (Condition.last (.operand false o)).render = [.lit o.id] := rfl
  rw [hrender, List.singleton_append] at h
  rw [h]
  simp [Condition.holds, Condition.join, Term.holds]

/-- **Undefining takes effect.**  In a run of the first pass, across all files, let a name be
undefined and not be defined again up to some moment; let it be neither a macro of the platform nor
a seed of the second pass.  Then it is not replaced at that moment, and if every definition before
stood outside all conditionals, a condition that is the name alone is false. -/
theorem undefine_holds_until_defined (p : Preprocessor σ) (tokens : List Token)
    (table : SpellingTable) (source : σ) (o : Operand) (hone : o.id ≠ TokenId.one)
    (hplatform : p.around.platform.lookup? o.id = none) (hseed : p.lateSeeds.lookup? o.id = none)
    {before between : List Event} {out emitted more : List Token} {a b c : Moment σ}
    (hbefore : Runs p.around .first (p.startMoment .first tokens table source) before out a)
    (hundefine : Moves p.around .first a [.undefined o.id] emitted b)
    (hbetween : Runs p.around .first b between more c) (hnever : NeverDefined o.id between) :
    c.state.expansion .first o.id = [.lit o.id] ∧
      (DefinedOutside o.id before → ∀ index after, startsWithSign after = false →
        (evaluate (c.state.scope p.around .first) index (.lit o.id :: after)).value
          = .ok false) := by
  have hearly : c.state.early.lookup? o.id = none :=
    hbetween.early_none hnever (hundefine.undefined_early rfl)
  refine ⟨?_, fun houtside index after hafter => ?_⟩
  · simp only [PassState.expansion, PassState.current, hearly]
  · have hbeforeLate : a.state.late.lookup? o.id = none := hbefore.late_none houtside hseed
    have hquiet : DefinedOutside o.id [.undefined o.id] := by
      intro body late inside hmem
      cases List.mem_singleton.mp hmem
    have hlater : DefinedOutside o.id between := fun body late inside hmem =>
      absurd hmem (hnever body late inside)
    have hlate : c.state.late.lookup? o.id = none :=
      hbetween.late_none hlater ((hundefine.tables_none o.id).2 hquiet hbeforeLate)
    rw [evaluate_name _ o index hafter]
    simp [Scope.defines, PassState.scope, MacroTable.defines, hearly, hplatform, hlate, hone]

/-- A name that an included file defines, undefined behind it and then used. -/
theorem undefine_holds_after_inclusion :
    let file : Included := ⟨[.lit TokenId.define, .lit 100, .lit 101, .lit TokenId.eol], .empty⟩
    let resolver : Resolver Unit := ⟨fun _ s => ⟨.ok file, [], s⟩, fun _ => 1⟩
    let p : Preprocessor Unit :=
      { Preprocessor.bare with around := ⟨.empty, fun _ => none, some resolver⟩ }
    let tokens : List Token :=
      [.lit TokenId.includeFile, .lit TokenId.one, .lit 3, .lit 100, .lit 100]
    let state : MacroTable → PassState Unit := fun early =>
      ⟨early, .empty, (SpellingTable.empty.merge .empty).merge .empty, [], [], [], ()⟩
    let defined : MacroTable := ⟨[(100, ⟨[.lit 101], 0⟩)]⟩
    let a : Moment Unit := ⟨[⟨[], 0, 2, tokens.drop 2⟩], state defined⟩
    let b : Moment Unit := ⟨[⟨[], 0, 4, tokens.drop 4⟩], state .empty⟩
    let c : Moment Unit := ⟨[⟨[], 0, 5, []⟩], state .empty⟩
    let before : List Event := [.defined 100 [.lit 101] false false]
    (∃ out, Runs p.around .first (p.startMoment .first tokens .empty ()) before out a) ∧
      DefinedOutside 100 before ∧ (∃ emitted, Moves p.around .first a [.undefined 100] emitted b) ∧
      (∃ more, Runs p.around .first b [.shown 100] more c) ∧ NeverDefined 100 [.shown 100] ∧
      c.state.expansion .first 100 = [.lit 100] ∧
      (evaluate (c.state.scope p.around .first) 0 [.lit 100]).value = .ok false := by
  intro file resolver p tokens state defined a b c before
  have hbefore : Runs p.around .first (p.startMoment .first tokens .empty ()) _ _ a :=
    .move (.enter rfl) (.move (.next rfl) (.move (.leave rfl) (.refl a)))
  have hforget : step p.around .first [] 0 2 (.lit 3) (tokens.drop 3) (state defined)
      = .next 2 (hide [.lit 3, .lit 100]) (state .empty) := rfl
  have hword : step p.around .first [] 0 4 (.lit 100) [] (state .empty)
      = .next 1 [.lit 100] (state .empty) := rfl
  have hundefine : Moves p.around .first a _ _ b := .next hforget
  have hevents : stepEvents (.lit 100) [] [.lit 100] (state .empty) = [.shown 100] := by
    rw [stepEvents_of_none rfl]
    simp [visible]
  have hbetween : Runs p.around .first b ([.shown 100] ++ []) ([.lit 100] ++ []) c :=
    .move (hevents ▸ .next hword) (.refl c)
  have houtside : DefinedOutside 100 before := by
    intro body late inside hmem
    cases List.mem_singleton.mp hmem
    exact ⟨rfl, rfl⟩
  have hnever : NeverDefined 100 [.shown 100] := by
    intro body late inside hmem
    cases List.mem_singleton.mp hmem
  obtain ⟨hexpansion, hcondition⟩ := undefine_holds_until_defined p tokens .empty () ⟨100, rfl⟩
    (by decide) rfl rfl hbefore hundefine hbetween hnever
  exact ⟨⟨_, hbefore⟩, houtside, ⟨_, hundefine⟩, ⟨_, hbetween⟩, hnever, hexpansion,
    hcondition houtside 0 [] rfl⟩

/-- **A definition inside a conditional leaves a copy behind**: `#if 1`, `#define X`, `#undefine X`,
`#ifdef X`.  The name is defined in two tables and taken out of one, so the condition holds and the
word behind it is shown. -/
theorem undefine_inside_leaves_copy :
    let tokens : List Token :=
      [.lit TokenId.ifTest, .lit TokenId.one, .lit TokenId.define, .lit 100, .lit TokenId.eol,
        .lit 3, .lit 100, .lit TokenId.ifdef, .lit 100, .lit 101, .lit TokenId.endif,
        .lit TokenId.endif]
    ∃ out, (Preprocessor.bare.run 0 tokens .empty ()).result = .ok out ∧ visible out = [101] := by
  refine ⟨_, by cbv, ?_⟩
  cbv

end EffectScript
