import EffectScript.Proofs.Confinement
import EffectScript.Proofs.Lockstep

/-!
# What a pass does not depend on

A pass that succeeds would do the same in many other circumstances.

* *With more room.*  The files around a file, the levels that are left and the conditionals around
  it are only asked whether something is forbidden.  With fewer files around, more levels and fewer
  conditionals that are not its own, what was not forbidden still is not.
* *From a state that resembles the first.*  What was reported is never read.  The state of the
  resolver shows in the files it gives alone, so one that gives the same files does as well.  The
  places at which conditionals were opened show in errors alone (`Proofs/Places`).

Main statements: `step_room`, `Passes.room` and `process_room`; `step_resembles` and
`process_resembles`.
-/

namespace EffectScript

variable {σ : Type}

/-! ## 1. Passes with more room

A file inside fewer files, with more levels left, and inside fewer conditionals that are not its
own: whatever succeeded still does. -/

section Room

variable {around : Surroundings σ} {pass : Pass} {path path' : List Bytes} {base base' : Nat}

theorem withBranch_room (hbase : base' ≤ base) {name : String} {s : PassState σ}
    {go : Branch → Step σ} (h : ∀ e t, withBranch base name s go ≠ .fail e t) :
    withBranch base' name s go = withBranch base name s go := by
  obtain ⟨top, outer, htop, houter, hgo⟩ := withBranch_ne_fail h
  rw [hgo]
  exact withBranch_cons htop (hbase.trans houter) name go

theorem includeStep_room (hpath : path' ⊆ path) {tokens : List Token} {s : PassState σ}
    (h : ∀ e t, includeStep around path tokens s ≠ .fail e t) :
    includeStep around path' tokens s = includeStep around path tokens s := by
  unfold includeStep Step.failWith at h ⊢
  split
  · rfl
  · split
    · rfl
    · split
      · rfl
      · rename_i name hname _ resolver hresolver
        cases hmem : path.contains name with
        | true =>
          simp only [*, if_true] at h
          exact absurd rfl (h _ _)
        | false =>
          have hmem' : path'.contains name = false := by
            rw [List.contains_eq_mem, decide_eq_false_iff_not] at hmem ⊢
            exact fun hin => hmem (hpath hin)
          rw [hmem']

/-- A step that does not fail is the same with more room. -/
theorem step_room (hpath : path' ⊆ path) (hbase : base' ≤ base) {index : Nat} {first : Token}
    {rest : List Token} {s : PassState σ}
    (h : ∀ e t, step around pass path base index first rest s ≠ .fail e t) :
    step around pass path' base' index first rest s
      = step around pass path base index first rest s := by
  cases first with
  | lit id =>
    cases hid : Directive.ofId? id with
    | none => simp only [step, hid]
    | some d =>
      simp only [step, hid] at h ⊢
      cases d with
      | includeFile => exact includeStep_room hpath h
      | elifTest => exact withBranch_room hbase h
      | elifVar => exact withBranch_room hbase h
      | elseBranch => exact withBranch_room hbase h
      | endif => exact withBranch_room hbase h
      | define late => rfl
      | undefine => rfl
      | ifTest negated late => rfl
      | ifVar negated => rfl
      | warning => rfl
      | registerEnv => rfl
  | skipOne => rfl
  | skipOpen => rfl
  | skipClose => rfl

variable {enter enter' : Bytes → List Token → PassState σ → PassResult σ}

/-- So is a passage. -/
theorem Passes.room
    (henter : ∀ {file inside inner s s'}, enter file inside s = (.ok inner, s') →
      enter' file inside s = (.ok inner, s'))
    (hpath : path' ⊆ path) (hbase : base' ≤ base) {a b : Cursor σ} {out : List Token}
    (h : Passes around pass enter path base a out b) :
    Passes around pass enter' path' base' a out b := by
  induction h with
  | refl a => exact .refl a
  | next hstep hrest ih =>
    refine .next ((step_room hpath hbase ?_).trans hstep) ih
    rw [hstep]
    rintro _ _ ⟨⟩
  | enter hstep hinner hrest ih =>
    refine .enter ((step_room hpath hbase ?_).trans hstep) (henter hinner) ih
    rw [hstep]
    rintro _ _ ⟨⟩

/-- A file that is gone through without an error is passed over to its end, and none of its
conditionals is open there. -/
theorem passes_of_walk {name : Bytes} {index : Nat} {tokens out : List Token} {s s' : PassState σ}
    (h : walk around pass enter path name base index tokens s = (.ok out, s')) :
    s'.branches.length ≤ base ∧
      ∃ i, Passes around pass enter path base ⟨index, tokens, s⟩ out ⟨i, [], s'⟩ := by
  induction hn : tokens.length using Nat.strongRecOn generalizing index tokens out s with
  | ind n ih =>
  cases tokens with
  | nil =>
    rw [walk, finish] at h
    split at h
    · rename_i hend
      cases h
      exact ⟨outermostAbove?_eq_none.mp hend, index, .refl _⟩
    · cases h
  | cons first rest =>
    have hlen : ∀ used, (rest.drop (used - 1)).length < n := by
      intro used
      simp only [List.length_drop, List.length_cons] at hn ⊢
      omega
    rw [walk] at h
    split at h
    · cases h
    · rename_i used emitted s₁ hstep
      obtain ⟨more, hmore, rfl⟩ := PassResult.prepend_eq_ok h
      obtain ⟨hend, i, hpasses⟩ := ih _ (hlen used) hmore rfl
      exact ⟨hend, i, .next hstep hpasses⟩
    · rename_i used emitted file inside s₁ hstep
      split at h
      · cases h
      · rename_i inner s₂ hinner
        obtain ⟨more, hmore, rfl⟩ := PassResult.prepend_eq_ok h
        obtain ⟨hend, i, hpasses⟩ := ih _ (hlen used) hmore rfl
        exact ⟨hend, i, .enter hstep hinner hpasses⟩

/-- **A file that is gone through without an error** is so inside fewer files and with more levels
left, to the same end. -/
theorem process_room {levels levels' : Nat} (hlevels : levels ≤ levels') (hpath : path' ⊆ path)
    {name : Bytes} {tokens out : List Token} {s s' : PassState σ}
    (h : process around pass levels path name tokens s = (.ok out, s')) :
    process around pass levels' path' name tokens s = (.ok out, s') := by
  induction levels generalizing levels' path path' name tokens out s s' with
  | zero => cases h
  | succ levels ih =>
    obtain ⟨more, rfl⟩ : ∃ more, levels' = more + 1 := ⟨levels' - 1, by omega⟩
    obtain ⟨hend, i, hpasses⟩ := passes_of_walk h
    have hroom := hpasses.room
      (fun {file _ _ _ _} hinner =>
        ih (Nat.le_of_succ_le_succ hlevels) (List.cons_subset_cons file hpath) hinner)
      hpath (Nat.le_refl _)
    rw [process, hroom.walk_eq name, walk, finish, outermostAbove?_eq_none.mpr hend]
    simp only [PassResult.prepend, Except.map, List.append_nil]

end Room

/-! ## 2. States that concur

What was reported has no bearing on a pass, and neither has the state of the resolver, as far as it
cannot be told from the files it gives. -/

/-- States of the resolver that are related give the same files, and stay related. -/
def Surroundings.Respects (around : Surroundings σ) (R : σ → σ → Prop) : Prop :=
  ∀ resolver, around.resolver = some resolver → ∀ name a b, R a b →
    (resolver.resolve name a).answer = (resolver.resolve name b).answer ∧
      R (resolver.resolve name a).source (resolver.resolve name b).source

/-- The states differ at most in what was reported and in the state of the resolver. -/
def PassState.Concurs (R : σ → σ → Prop) (s t : PassState σ) : Prop :=
  ∃ log env source, R s.source source ∧ t = { s with log := log, env := env, source := source }

section Concurs

variable {around : Surroundings σ} {pass : Pass} {path : List Bytes} {base index : Nat}
  {R : σ → σ → Prop} {s t : PassState σ}

theorem scope_concurs (h : s.Concurs R t) : t.scope around pass = s.scope around pass := by
  obtain ⟨log, env, source, -, rfl⟩ := h
  cases pass <;> rfl

theorem testVariable_concurs (around : Surroundings σ) (id : TokenId) (h : s.Concurs R t) :
    (t.testVariable around id).1 = (s.testVariable around id).1 ∧
      (s.testVariable around id).2.Concurs R (t.testVariable around id).2 := by
  obtain ⟨log, env, source, hsource, rfl⟩ := h
  unfold PassState.testVariable
  dsimp only
  split
  · exact ⟨rfl, _, _, _, hsource, rfl⟩
  · exact ⟨rfl, _, _, _, hsource, rfl⟩

theorem includeStep_concurs (haround : around.Respects R) (tokens : List Token)
    (h : s.Concurs R t) :
    (includeStep around path tokens s).Lockstep (PassState.Concurs R)
      (includeStep around path tokens t) := by
  obtain ⟨log, env, source, hsource, rfl⟩ := h
  unfold includeStep
  dsimp only
  split
  · exact .fail _ _ _ _
  · split
    · exact .fail _ _ _ _
    · split
      · exact .fail _ _ _ _
      · rename_i name _ _ resolver hresolver
        obtain ⟨hanswer, hsource'⟩ := haround resolver hresolver name _ _ hsource
        rw [← hanswer]
        split
        · exact .fail _ _ _ _
        · split
          · exact .fail _ _ _ _
          · exact .enter _ _ _ _ ⟨_, _, _, hsource', rfl⟩

theorem forget_concurs (id : TokenId) (h : s.Concurs R t) :
    (s.forget pass id).Concurs R (t.forget pass id) := by
  obtain ⟨log, env, source, hsource, rfl⟩ := h
  have hcurrent : PassState.current pass { s with log := log, env := env, source := source }
      = s.current pass := by
    cases pass <;> rfl
  unfold PassState.forget
  rw [hcurrent]
  dsimp only
  split
  · cases pass <;> exact ⟨_, _, _, hsource, rfl⟩
  · split
    · exact ⟨_, _, _, hsource, rfl⟩
    · exact ⟨_, _, _, hsource, rfl⟩

theorem replay_concurs (unit : List Token) (h : s.Concurs R t) :
    (replay s unit).Concurs R (replay t unit) := by
  obtain ⟨log, env, source, hsource, rfl⟩ := h
  unfold replay
  split
  · split
    · exact ⟨_, _, _, hsource, rfl⟩
    · exact ⟨_, _, _, hsource, rfl⟩
  · exact ⟨_, _, _, hsource, rfl⟩

/-- States that concur are the same to every step. -/
theorem concurs_congruence (around : Surroundings σ) (pass : Pass) (R : σ → σ → Prop) :
    Congruence around pass (fun _ => True) (fun _ => True) True (PassState.Concurs R) where
  length_eq := by
    rintro s _ ⟨log, env, source, -, rfl⟩
    rfl
  top := by
    rintro s _ top outer ⟨log, env, source, -, rfl⟩ htop
    exact ⟨top, outer, htop, rfl, rfl, rfl, fun _ => rfl⟩
  push := by
    rintro s _ b b' ⟨log, env, source, hsource, rfl⟩ hsame
    rw [hsame.eq trivial]
    exact ⟨_, _, _, hsource, rfl⟩
  setTop := by
    rintro s _ b b' ⟨log, env, source, hsource, rfl⟩ hsame
    rw [hsame.eq trivial]
    exact ⟨_, _, _, hsource, rfl⟩
  pop := by
    rintro s _ ⟨log, env, source, hsource, rfl⟩
    exact ⟨_, _, _, hsource, rfl⟩
  verdict := by
    intro s t tokens index h _
    rw [scope_concurs h]
    exact ⟨rfl, rfl, fun _ => rfl⟩
  testVariable := fun h _ => testVariable_concurs around _ h
  expansion := by
    rintro s _ id ⟨log, env, source, -, rfl⟩ -
    cases pass <;> rfl
  enterMacro := by
    rintro s _ late name body ⟨log, env, source, hsource, rfl⟩
    exact ⟨_, _, _, hsource, rfl⟩
  forget := fun h _ => forget_concurs _ h
  replay := fun unit h => replay_concurs unit h
  notes := by
    rintro s _ log log' env env' ⟨_, _, source, hsource, rfl⟩
    exact ⟨_, _, _, hsource, rfl⟩

/-- From states that concur, a step is the same. -/
theorem step_concurs (haround : around.Respects R) (first : Token) (rest : List Token)
    (h : s.Concurs R t) :
    (step around pass path base index first rest s).Lockstep (PassState.Concurs R)
      (step around pass path base index first rest t) :=
  (concurs_congruence around pass R).step index (fun _ => includeStep_concurs haround _ h)
    (fun _ _ => trivial) (fun _ _ => trivial) h

end Concurs

/-- The states differ at most in what was reported, in the state of the resolver, and in the places
at which the open conditionals were opened. -/
def PassState.Resembles (R : σ → σ → Prop) (s t : PassState σ) : Prop :=
  ∃ u, s.Alike u ∧ u.Concurs R t

section Resembles

variable {around : Surroundings σ} {pass : Pass} {path : List Bytes} {base : Nat}
  {R : σ → σ → Prop} {s t : PassState σ}

theorem PassState.Resembles.length_eq (h : s.Resembles R t) :
    t.branches.length = s.branches.length := by
  obtain ⟨u, halike, log, env, source, -, rfl⟩ := h
  exact halike.length_eq

/-- From states that resemble each other, a step is the same, wherever it is counted from. -/
theorem step_resembles (haround : around.Respects R) (first : Token) (rest : List Token)
    (index index' : Nat) (h : s.Resembles R t) :
    (step around pass path base index first rest s).Lockstep (PassState.Resembles R)
      (step around pass path base index' first rest t) := by
  obtain ⟨u, halike, hconcurs⟩ := h
  have hplaces : (step around pass path base index first rest s).Alike
      (step around pass path base index' first rest u) := step_alike first rest index index' halike
  have hnotes : (step around pass path base index' first rest u).Lockstep (PassState.Concurs R)
      (step around pass path base index' first rest t) := step_concurs haround first rest hconcurs
  exact hplaces.lockstep hnotes fun halike hconcurs => ⟨_, halike, hconcurs⟩

/-- **From states that resemble each other, a file is gone through in lockstep**, with those it
includes. -/
theorem process_resembles (haround : around.Respects R) (levels : Nat) (path : List Bytes)
    (name : Bytes) (tokens : List Token) (h : s.Resembles R t) :
    (process around pass levels path name tokens s).Lockstep (PassState.Resembles R)
      (process around pass levels path name tokens t) := by
  induction levels generalizing path name tokens s t with
  | zero => exact .error _ _ _ _
  | succ levels ih =>
    rw [process, process, h.length_eq]
    refine walk_lockstep (fun _ => True) (fun _ _ => trivial) (fun h => h.length_eq)
      (fun index index' _ h => step_resembles haround _ _ index index' h) ?_ name name 0 0 trivial h
    intro index used first rest emitted file inside s s₁ t₁ _ _ h₁
    exact ih (file :: path) file inside h₁

end Resembles

end EffectScript
