import EffectScript.Proofs.Deeds

/-!
# The places of conditionals

An open conditional remembers the index at which it was opened, and every error names the index of
the token it arose at.  Neither has any bearing on what a pass puts out.  Two states are alike when
they differ at most in these places; from alike states a pass over the same tokens, counted from any
index, fails in both cases or puts out the same text and ends in alike states.

Main statements: `step_alike` for a step, `walk_alike` for the rest of a file, `process_alike` for a
file and those it includes.
-/

namespace EffectScript

variable {σ : Type}

/-! ## 1. Alike results -/

theorem PassState.Alike.trans {s s' s'' : PassState σ} (h : s.Alike s') (h' : s'.Alike s'') :
    s.Alike s'' := by
  obtain ⟨branches, rfl, hbranches⟩ := h
  obtain ⟨branches', rfl, hbranches'⟩ := h'
  exact ⟨branches', rfl, hbranches'.trans hbranches⟩

theorem PassState.Alike.length_eq {s s' : PassState σ} (h : s.Alike s') :
    s'.branches.length = s.branches.length := by
  obtain ⟨branches, rfl, hbranches⟩ := h
  simpa using congrArg List.length hbranches

/-- Two steps that differ at most in places. -/
inductive Step.Alike : Step σ → Step σ → Prop
  | next (used : Nat) (emitted : List Token) {s s' : PassState σ} (h : s.Alike s') :
      Alike (.next used emitted s) (.next used emitted s')
  | enter (used : Nat) (emitted : List Token) (name : Bytes) (file : List Token)
      {s s' : PassState σ} (h : s.Alike s') :
      Alike (.enter used emitted name file s) (.enter used emitted name file s')
  | fail (e e' : Error) (s s' : PassState σ) : Alike (.fail e s) (.fail e' s')

theorem Step.Alike.symm {st st' : Step σ} (h : st.Alike st') : st'.Alike st := by
  cases h with
  | next used emitted h => exact .next used emitted h.symm
  | enter used emitted name file h => exact .enter used emitted name file h.symm
  | fail e e' s s' => exact .fail e' e s' s

/-- Two results that differ at most in places. -/
inductive PassResult.Alike : PassResult σ → PassResult σ → Prop
  | ok (out : List Token) {s s' : PassState σ} (h : s.Alike s') : Alike (.ok out, s) (.ok out, s')
  | error (e e' : Error) (s s' : PassState σ) : Alike (.error e, s) (.error e', s')

theorem PassResult.Alike.prepend {r r' : PassResult σ} (h : r.Alike r') (emitted : List Token) :
    (r.prepend emitted).Alike (r'.prepend emitted) := by
  cases h with
  | ok out h => exact .ok (emitted ++ out) h
  | error e e' s s' => exact .error e e' s s'

/-! ## 2. Steps -/

section Steps

variable {around : Surroundings σ} {pass : Pass} {path : List Bytes} {base : Nat} {first : Token}
  {rest : List Token} {s s' : PassState σ}

theorem branchStep_alike (tokens : List Token) (size : Nat) (live : Bool) (h : s.Alike s') :
    (branchStep tokens size live s).Alike (branchStep tokens size live s') := by
  unfold branchStep
  cases live with
  | true => exact .next _ _ h
  | false =>
    cases deadLength? 0 (tokens.drop size) with
    | none => exact .fail _ _ _ _
    | some dead => exact .next _ _ h

/-- Rulings that are alike one ruling are carried out alike. -/
theorem Ruling.Alike.toStep {r₀ r r' : Ruling σ} (h : r₀.Alike r) (h' : r₀.Alike r')
    (tokens : List Token) (size : Nat) : (r.toStep tokens size).Alike (r'.toStep tokens size) := by
  cases h with
  | leave h =>
    cases h' with
    | leave h' => exact .next _ _ (h.symm.trans h')
  | branch live h =>
    cases h' with
    | branch _ h' => exact branchStep_alike tokens size live (h.symm.trans h')

/-- A directive that starts a branch. -/
theorem branches_alike {d : Directive} (hd : d.branches) (index index' : Nat) (h : s.Alike s') :
    (directiveStep around pass path base index (first :: rest) s d).Alike
      (directiveStep around pass path base index' (first :: rest) s' d) := by
  -- One that does not fail comes to a ruling, at any index and in any alike state.
  have hruled : ∀ {i i' : Nat} {s s' : PassState σ}, s.Alike s' →
      (∀ e t, directiveStep around pass path base i (first :: rest) s d ≠ .fail e t) →
      (directiveStep around pass path base i (first :: rest) s d).Alike
        (directiveStep around pass path base i' (first :: rest) s' d) := by
    intro i i' s s' h hne
    obtain ⟨more, hrest, -, htest, r₀, hrule⟩ := exists_ruling hd hne
    obtain ⟨r, hr, -, hgo⟩ := hrule i s (.refl s)
    obtain ⟨r', hr', -, hgo'⟩ := hrule i' s' h
    have hsign : d.isTest → startsWithSign more = false := fun ht => (htest ht).1
    have hstep : directiveStep around pass path base i
        (first :: (d.operands rest ++ more)) s d = _ := hgo more hsign
    have hstep' : directiveStep around pass path base i'
        (first :: (d.operands rest ++ more)) s' d = _ := hgo' more hsign
    rw [← hrest] at hstep hstep'
    rw [hstep, hstep']
    exact hr.toStep hr' _ _
  by_cases hne : ∀ e t, directiveStep around pass path base index (first :: rest) s d ≠ .fail e t
  · exact hruled h hne
  · by_cases hne' :
        ∀ e t, directiveStep around pass path base index' (first :: rest) s' d ≠ .fail e t
    · exact (hruled h.symm hne').symm
    · simp only [ne_eq, Classical.not_forall, Classical.not_not] at hne hne'
      obtain ⟨e, t, hleft⟩ := hne
      obtain ⟨e', t', hright⟩ := hne'
      rw [hleft, hright]
      exact .fail e e' t t'

theorem endifStep_alike (tokens : List Token) (h : s.Alike s') :
    (endifStep base tokens s).Alike (endifStep base tokens s') := by
  have hlength := h.length_eq
  obtain ⟨branches, rfl, hbranches⟩ := h
  dsimp only at hlength
  unfold endifStep withBranch
  cases htop : s.branches with
  | nil =>
    rw [htop] at hbranches
    obtain rfl := List.map_eq_nil_iff.mp hbranches
    exact .fail _ _ _ _
  | cons top outer =>
    rw [htop] at hbranches hlength
    obtain ⟨place, outer', rfl, houter⟩ := Branch.unplaced_cons hbranches
    dsimp only
    rw [hlength]
    split
    · exact .fail _ _ _ _
    · exact .next _ _ (.of_branches houter)

theorem maskAll_unplaced (branches : List Branch) :
    Branch.maskAll (branches.map Branch.unplaced) = Branch.maskAll branches :=
  List.foldr_map

theorem enterMacro_alike (late : Bool) (name : TokenId) (body : List Token) (h : s.Alike s') :
    (s.enterMacro pass late name body).Alike (s'.enterMacro pass late name body) := by
  obtain ⟨branches, rfl, hbranches⟩ := h
  have hmask : Branch.maskAll branches = Branch.maskAll s.branches := by
    rw [← maskAll_unplaced, hbranches, maskAll_unplaced]
  have hnil : branches = [] ↔ s.branches = [] := by
    rw [← List.map_eq_nil_iff, hbranches, List.map_eq_nil_iff]
  refine ⟨branches, ?_, hbranches⟩
  unfold PassState.enterMacro
  simp only [hmask, hnil]
  rfl

theorem forget_alike (id : TokenId) (h : s.Alike s') :
    (s.forget pass id).Alike (s'.forget pass id) := by
  obtain ⟨branches, rfl, hbranches⟩ := h
  have hcurrent : PassState.current pass { s with branches := branches } = s.current pass := by
    cases pass <;> rfl
  unfold PassState.forget
  rw [hcurrent]
  dsimp only
  split
  · cases pass <;> exact ⟨branches, rfl, hbranches⟩
  · split
    · exact ⟨branches, rfl, hbranches⟩
    · exact ⟨branches, rfl, hbranches⟩

theorem replay_alike (unit : List Token) (h : s.Alike s') :
    (replay s unit).Alike (replay s' unit) := by
  obtain ⟨branches, rfl, hbranches⟩ := h
  unfold replay
  split
  · split
    · exact ⟨branches, rfl, hbranches⟩
    · exact ⟨branches, rfl, hbranches⟩
  · exact ⟨branches, rfl, hbranches⟩

theorem includeStep_alike (tokens : List Token) (h : s.Alike s') :
    (includeStep around path tokens s).Alike (includeStep around path tokens s') := by
  obtain ⟨branches, rfl, hbranches⟩ := h
  unfold includeStep
  dsimp only
  split
  · exact .fail _ _ _ _
  · split
    · exact .fail _ _ _ _
    · split
      · exact .fail _ _ _ _
      · split
        · exact .fail _ _ _ _
        · split
          · exact .fail _ _ _ _
          · exact .enter _ _ _ _ ⟨branches, rfl, hbranches⟩

theorem directiveStep_alike (d : Directive) (index index' : Nat) (h : s.Alike s') :
    (directiveStep around pass path base index (first :: rest) s d).Alike
      (directiveStep around pass path base index' (first :: rest) s' d) := by
  cases d with
  | includeFile => exact includeStep_alike _ h
  | define late =>
    cases rest with
    | nil => exact .fail _ _ _ _
    | cons t after =>
      cases t with
      | lit name =>
        simp only [directiveStep, defineStep_eq]
        exact .next _ _ (enterMacro_alike late name _ h)
      | skipOne => exact .fail _ _ _ _
      | skipOpen => exact .fail _ _ _ _
      | skipClose => exact .fail _ _ _ _
  | undefine =>
    cases rest with
    | nil => exact .fail _ _ _ _
    | cons name after => exact .next _ _ (forget_alike name.id h)
  | ifTest negated late => exact branches_alike rfl index index' h
  | ifVar negated => exact branches_alike rfl index index' h
  | elifTest => exact branches_alike rfl index index' h
  | elifVar => exact branches_alike rfl index index' h
  | elseBranch => exact branches_alike rfl index index' h
  | endif => exact endifStep_alike _ h
  | warning =>
    obtain ⟨branches, rfl, hbranches⟩ := h
    exact .next _ _ ⟨branches, rfl, hbranches⟩
  | registerEnv =>
    obtain ⟨branches, rfl, hbranches⟩ := h
    exact .next _ _ ⟨branches, rfl, hbranches⟩

/-- **From alike states, a step is the same but for places.** -/
theorem step_alike (first : Token) (rest : List Token) (index index' : Nat) (h : s.Alike s') :
    (step around pass path base index first rest s).Alike
      (step around pass path base index' first rest s') := by
  have hhidden : ∀ n tokens, (hiddenStep pass n tokens s).Alike (hiddenStep pass n tokens s') := by
    intro n tokens
    refine .next _ _ ?_
    split
    · exact replay_alike _ h
    · exact h
  cases first with
  | lit id =>
    simp only [step]
    cases Directive.ofId? id with
    | some d => exact directiveStep_alike d index index' h
    | none =>
      dsimp only
      split
      · exact .next _ _ h
      · rw [plainStep_eq, plainStep_eq]
        have hexpansion : s'.expansion pass id = s.expansion pass id := by
          obtain ⟨branches, rfl, -⟩ := h
          cases pass <;> rfl
        rw [hexpansion]
        exact .next _ _ h
  | skipOne => exact hhidden _ _
  | skipOpen => exact hhidden _ _
  | skipClose => exact hhidden _ _

end Steps

/-! ## 3. Files -/

section Files

variable {around : Surroundings σ} {pass : Pass}

theorem finish_alike (name name' : Bytes) (base : Nat) {s s' : PassState σ} (h : s.Alike s') :
    (finish name base s).Alike (finish name' base s') := by
  have hnone : Branch.outermostAbove? base s'.branches = none
      ↔ Branch.outermostAbove? base s.branches = none := by
    simp only [Branch.outermostAbove?, List.getLast?_eq_none_iff, ← List.length_eq_zero_iff,
      List.length_take, h.length_eq]
  unfold finish
  cases hs : Branch.outermostAbove? base s.branches with
  | none =>
    rw [hnone.mpr hs]
    exact .ok [] h
  | some b =>
    cases hs' : Branch.outermostAbove? base s'.branches with
    | none =>
      rw [hnone.mp hs'] at hs
      cases hs
    | some b' => exact .error _ _ _ _

/-- **From alike states, the rest of a file is the same but for places**, wherever it is counted
from, when that holds of the files it includes. -/
theorem walk_alike {enter : Bytes → List Token → PassState σ → PassResult σ}
    (henter : ∀ file inside {s s' : PassState σ}, s.Alike s' →
      (enter file inside s).Alike (enter file inside s'))
    (path : List Bytes) (name : Bytes) (base index index' : Nat) (tokens : List Token)
    {s s' : PassState σ} (h : s.Alike s') :
    (walk around pass enter path name base index tokens s).Alike
      (walk around pass enter path name base index' tokens s') := by
  induction hn : tokens.length using Nat.strongRecOn generalizing index index' tokens s s' with
  | ind n ih =>
  cases tokens with
  | nil =>
    rw [walk, walk]
    exact finish_alike name name base h
  | cons first rest =>
    have hlen : ∀ used, (rest.drop (used - 1)).length < n := by
      intro used
      simp only [List.length_drop, List.length_cons] at hn ⊢
      omega
    rw [walk, walk]
    have hstep : (step around pass path base index first rest s).Alike
        (step around pass path base index' first rest s') := step_alike first rest index index' h
    generalize step around pass path base index first rest s = st at hstep
    generalize step around pass path base index' first rest s' = st' at hstep
    cases hstep with
    | fail e e' t t' => exact .error _ _ _ _
    | next used emitted ht => exact (ih _ (hlen used) _ _ _ ht rfl).prepend emitted
    | @enter used emitted file inside t t' ht =>
      have hinner := henter file inside ht
      dsimp only
      generalize enter file inside t = r at hinner
      generalize enter file inside t' = r' at hinner
      cases hinner with
      | error e e' u u' => exact .error _ _ _ _
      | ok inner hu => exact (ih _ (hlen used) _ _ _ hu rfl).prepend (emitted ++ inner)

/-- **So is a file**, with those it includes. -/
theorem process_alike (levels : Nat) (path : List Bytes) (name : Bytes) (tokens : List Token)
    {s s' : PassState σ} (h : s.Alike s') :
    (process around pass levels path name tokens s).Alike
      (process around pass levels path name tokens s') := by
  induction levels generalizing path name tokens s s' with
  | zero => exact .error _ _ _ _
  | succ levels ih =>
    rw [process, process, h.length_eq]
    exact walk_alike (fun file inside _ _ h => ih (file :: path) file inside h) path name
      s.branches.length 0 0 tokens h

end Files

end EffectScript
