import EffectScript.Proofs.Places

/-!
# Two passes in lockstep

Two states may differ in something that the tokens ahead do not bring to light: the place where a
conditional was opened, a line that was reported, a macro that none of them names.  Then a pass
takes the same steps from both of them.

Here this is said once, for any relation of states and any kind of text.  A relation that nothing a
step asks of a state can see through, and that all that is done to a state keeps, is a congruence;
the steps from related states then take the same tokens, put out the same and lead to related
states, or fail both.  If the steps do, so does the rest of a file.

Main statements: `Congruence.step` and `walk_lockstep`.
-/

namespace EffectScript

variable {σ : Type} {Rel : PassState σ → PassState σ → Prop}

/-! ## 1. Lockstep -/

/-- Two steps that do the same and lead to related states, or fail both. -/
inductive Step.Lockstep (Rel : PassState σ → PassState σ → Prop) : Step σ → Step σ → Prop
  | next (used : Nat) (emitted : List Token) {s t : PassState σ} (h : Rel s t) :
      Lockstep Rel (.next used emitted s) (.next used emitted t)
  | enter (used : Nat) (emitted : List Token) (name : Bytes) (file : List Token)
      {s t : PassState σ} (h : Rel s t) :
      Lockstep Rel (.enter used emitted name file s) (.enter used emitted name file t)
  | fail (e e' : Error) (s t : PassState σ) : Lockstep Rel (.fail e s) (.fail e' t)

/-- Two results with the same output and related states, or two errors. -/
inductive PassResult.Lockstep (Rel : PassState σ → PassState σ → Prop) :
    PassResult σ → PassResult σ → Prop
  | ok (out : List Token) {s t : PassState σ} (h : Rel s t) : Lockstep Rel (.ok out, s) (.ok out, t)
  | error (e e' : Error) (s t : PassState σ) : Lockstep Rel (.error e, s) (.error e', t)

theorem PassResult.Lockstep.prepend {r r' : PassResult σ} (h : r.Lockstep Rel r')
    (emitted : List Token) : (r.prepend emitted).Lockstep Rel (r'.prepend emitted) := by
  cases h with
  | ok out h => exact .ok (emitted ++ out) h
  | error e e' s t => exact .error e e' s t

/-- Where the one succeeds, so does the other. -/
theorem PassResult.Lockstep.of_ok {out : List Token} {s : PassState σ} {r : PassResult σ}
    (h : PassResult.Lockstep Rel (.ok out, s) r) : ∃ t, r = (.ok out, t) ∧ Rel s t := by
  cases h with
  | ok _ h => exact ⟨_, rfl, h⟩

theorem Step.Lockstep.of_next {used : Nat} {emitted : List Token} {s : PassState σ} {st : Step σ}
    (h : Step.Lockstep Rel (.next used emitted s) st) :
    ∃ t, st = .next used emitted t ∧ Rel s t := by
  cases h with
  | next _ _ h => exact ⟨_, rfl, h⟩

theorem Step.Lockstep.of_enter {used : Nat} {emitted file : List Token} {name : Bytes}
    {s : PassState σ} {st : Step σ} (h : Step.Lockstep Rel (.enter used emitted name file s) st) :
    ∃ t, st = .enter used emitted name file t ∧ Rel s t := by
  cases h with
  | enter _ _ _ _ h => exact ⟨_, rfl, h⟩

/-- A step in lockstep with one counted from another place. -/
theorem Step.Alike.lockstep {Rel' : PassState σ → PassState σ → Prop} {st st₁ st₂ : Step σ}
    (h : st.Alike st₁) (h' : st₁.Lockstep Rel st₂)
    (htrans : ∀ {s u t}, s.Alike u → Rel u t → Rel' s t) : st.Lockstep Rel' st₂ := by
  cases h with
  | next used emitted hu =>
    obtain ⟨t, rfl, ht⟩ := h'.of_next
    exact .next _ _ (htrans hu ht)
  | enter used emitted name file hu =>
    obtain ⟨t, rfl, ht⟩ := h'.of_enter
    exact .enter _ _ _ _ (htrans hu ht)
  | fail e e' u u' =>
    cases h' with
    | fail _ e₂ _ t₂ => exact .fail _ _ _ _

/-! ## 2. Steps -/

/-- Records of conditionals with the same flags, or the same altogether where that is asked. -/
structure Branch.Same (whole : Prop) (b b' : Branch) : Prop where
  deferred : b'.deferred = b.deferred
  taken : b'.taken = b.taken
  closed : b'.closed = b.closed
  eq : whole → b' = b

/-- Nothing that a step asks of a state tells related states apart, and what a step does to them
leaves them related.  The macros are asked for ids of `M`, the spellings for those of `N`. -/
structure Congruence (around : Surroundings σ) (pass : Pass) (M N : TokenId → Prop) (whole : Prop)
    (Rel : PassState σ → PassState σ → Prop) : Prop where
  length_eq : ∀ {s t}, Rel s t → t.branches.length = s.branches.length
  top : ∀ {s t top outer}, Rel s t → s.branches = top :: outer →
    ∃ top' outer', t.branches = top' :: outer' ∧ top.Same whole top'
  push : ∀ {s t b b'}, Rel s t → b.Same whole b' → Rel (s.push b) (t.push b')
  setTop : ∀ {s t b b'}, Rel s t → b.Same whole b' → Rel (s.setTop b) (t.setTop b')
  pop : ∀ {s t}, Rel s t →
    Rel { s with branches := s.branches.tail } { t with branches := t.branches.tail }
  verdict : ∀ {s t} {tokens : List Token} index, Rel s t → (∀ u ∈ tokens, M u.id) →
    let v := evaluate (s.scope around pass) index tokens
    let v' := evaluate (t.scope around pass) index tokens
    v'.value = v.value ∧ v'.stop = v.stop ∧ (whole → v'.mask = v.mask)
  testVariable : ∀ {s t id}, Rel s t → N id →
    (t.testVariable around id).1 = (s.testVariable around id).1 ∧
      Rel (s.testVariable around id).2 (t.testVariable around id).2
  expansion : ∀ {s t id}, Rel s t → M id → t.expansion pass id = s.expansion pass id
  enterMacro : ∀ {s t} late name body, Rel s t →
    Rel (s.enterMacro pass late name body) (t.enterMacro pass late name body)
  forget : ∀ {s t id}, Rel s t → M id → Rel (s.forget pass id) (t.forget pass id)
  replay : ∀ {s t} unit, Rel s t → Rel (replay s unit) (replay t unit)
  notes : ∀ {s t} log log' env env', Rel s t →
    Rel { s with log := log, env := env } { t with log := log', env := env' }

theorem branchStep_lockstep (tokens : List Token) (size : Nat) (live : Bool) {s t : PassState σ}
    (h : Rel s t) :
    (branchStep tokens size live s).Lockstep Rel (branchStep tokens size live t) := by
  unfold branchStep
  cases live with
  | true => exact .next _ _ h
  | false =>
    cases deadLength? 0 (tokens.drop size) with
    | none => exact .fail _ _ _ _
    | some dead => exact .next _ _ h

namespace Congruence

variable {around : Surroundings σ} {pass : Pass} {path : List Bytes} {base : Nat} {first : Token}
  {rest : List Token} {M N : TokenId → Prop} {whole : Prop} {s t : PassState σ}

theorem withBranch (c : Congruence around pass M N whole Rel) (name : String)
    {go go' : Branch → Step σ} (h : Rel s t)
    (hgo : ∀ top top', top.Same whole top' → (go top).Lockstep Rel (go' top')) :
    (withBranch base name s go).Lockstep Rel (withBranch base name t go') := by
  have hlength := c.length_eq h
  unfold EffectScript.withBranch
  cases hs : s.branches with
  | nil =>
    rw [hs] at hlength
    rw [List.length_eq_zero_iff.mp hlength]
    exact .fail _ _ _ _
  | cons top outer =>
    obtain ⟨top', outer', ht, hsame⟩ := c.top h hs
    rw [hs, ht] at hlength
    rw [ht]
    dsimp only
    rw [hlength]
    split
    · exact .fail _ _ _ _
    · exact hgo top top' hsame

/-- A directive other than that which names a file. -/
theorem directiveStep (c : Congruence around pass M N whole Rel) (index : Nat) (d : Directive)
    (hd : d ≠ .includeFile) (hnames : ∀ u ∈ rest, M u.id) (hspelled : ∀ u ∈ rest, N u.id)
    (h : Rel s t) :
    (directiveStep around pass path base index (first :: rest) s d).Lockstep Rel
      (directiveStep around pass path base index (first :: rest) t d) := by
  obtain ⟨hvalue, hstop, hmask⟩ := c.verdict (index + 1) h hnames
  cases d with
  | includeFile => exact absurd rfl hd
  | define late =>
    cases rest with
    | nil => exact .fail _ _ _ _
    | cons u after =>
      cases u with
      | lit name =>
        simp only [EffectScript.directiveStep, defineStep_eq]
        exact .next _ _ (c.enterMacro late name _ h)
      | skipOne => exact .fail _ _ _ _
      | skipOpen => exact .fail _ _ _ _
      | skipClose => exact .fail _ _ _ _
  | undefine =>
    cases rest with
    | nil => exact .fail _ _ _ _
    | cons name after => exact .next _ _ (c.forget h (hnames name List.mem_cons_self))
  | ifTest negated late =>
    have hopened : ∀ deferred taken, Branch.Same whole
        ⟨deferred, taken, false, (evaluate (s.scope around pass) (index + 1) rest).mask, index⟩
        ⟨deferred, taken, false, (evaluate (t.scope around pass) (index + 1) rest).mask, index⟩ :=
      fun _ _ => ⟨rfl, rfl, rfl, fun he => by rw [hmask he]⟩
    simp only [EffectScript.directiveStep, ifTestStep, List.tail_cons, hvalue, hstop]
    split
    · exact .fail _ _ _ _
    · split
      · exact .next _ _ (c.push h (hopened _ _))
      · exact branchStep_lockstep _ _ _ (c.push h (hopened _ _))
  | ifVar negated =>
    cases rest with
    | nil => exact .fail _ _ _ _
    | cons name after =>
      obtain ⟨hset, hafter⟩ := c.testVariable h (hspelled name List.mem_cons_self)
      simp only [EffectScript.directiveStep, ifVarStep, List.tail_cons, hset]
      exact branchStep_lockstep _ _ _ (c.push hafter ⟨rfl, rfl, rfl, fun _ => rfl⟩)
  | elifTest =>
    refine c.withBranch _ h fun top top' hsame => ?_
    simp only [List.tail_cons, hvalue, hstop, hsame.deferred, hsame.taken, hsame.closed]
    split
    · exact .fail _ _ _ _
    · split
      · exact .next _ _ h
      · split
        · exact .fail _ _ _ _
        · split
          · exact branchStep_lockstep _ _ _ h
          · refine branchStep_lockstep _ _ _ (c.setTop h ⟨rfl, rfl, rfl, fun he => ?_⟩)
            rw [hmask he, hsame.eq he]
  | elifVar =>
    refine c.withBranch _ h fun top top' hsame => ?_
    cases rest with
    | nil => exact .fail _ _ _ _
    | cons name after =>
      obtain ⟨hset, hafter⟩ := c.testVariable h (hspelled name List.mem_cons_self)
      simp only [List.tail_cons, hset, hsame.deferred, hsame.taken, hsame.closed]
      split
      · exact .next _ _ h
      · split
        · exact .fail _ _ _ _
        · split
          · exact branchStep_lockstep _ _ _ h
          · refine branchStep_lockstep _ _ _ (c.setTop hafter ⟨rfl, rfl, rfl, fun he => ?_⟩)
            rw [hsame.eq he]
  | elseBranch =>
    refine c.withBranch _ h fun top top' hsame => ?_
    simp only [hsame.deferred, hsame.taken, hsame.closed]
    split
    · exact .next _ _ h
    · split
      · exact .fail _ _ _ _
      · refine branchStep_lockstep _ _ _ (c.setTop h ⟨rfl, rfl, rfl, fun he => ?_⟩)
        rw [hsame.eq he]
  | endif =>
    refine c.withBranch _ h fun top top' hsame => ?_
    simp only [hsame.deferred]
    exact .next _ _ (c.pop h)
  | warning =>
    simp only [EffectScript.directiveStep, warningStep, textArgument_snd]
    exact .next _ _ (c.notes _ _ _ _ h)
  | registerEnv =>
    simp only [EffectScript.directiveStep, registerEnvStep, textArgument_snd]
    exact .next _ _ (c.notes _ _ _ _ h)

/-- **Steps from congruent states go in lockstep**, if the inclusion of a file does. -/
theorem step (c : Congruence around pass M N whole Rel) (index : Nat)
    (hfile : first = .lit TokenId.includeFile →
      (includeStep around path (first :: rest) s).Lockstep Rel
        (includeStep around path (first :: rest) t))
    (hnames : ∀ u ∈ first :: rest, M u.id) (hspelled : ∀ u ∈ first :: rest, N u.id) (h : Rel s t) :
    (step around pass path base index first rest s).Lockstep Rel
      (step around pass path base index first rest t) := by
  have hhidden : ∀ n tokens,
      (hiddenStep pass n tokens s).Lockstep Rel (hiddenStep pass n tokens t) := by
    intro n tokens
    refine .next _ _ ?_
    split
    · exact c.replay _ h
    · exact h
  cases first with
  | lit id =>
    simp only [EffectScript.step]
    cases hid : Directive.ofId? id with
    | some d =>
      by_cases hd : d = .includeFile
      · subst hd
        exact hfile (by rw [Directive.eq_includeFile hid])
      · exact c.directiveStep index d hd (fun u hu => hnames u (List.mem_cons_of_mem _ hu))
          (fun u hu => hspelled u (List.mem_cons_of_mem _ hu)) h
    | none =>
      dsimp only
      split
      · exact .next _ _ h
      · have hword : M id := hnames (.lit id) List.mem_cons_self
        rw [plainStep_eq, plainStep_eq, c.expansion h hword]
        exact .next _ _ h
  | skipOne => exact hhidden _ _
  | skipOpen => exact hhidden _ _
  | skipClose => exact hhidden _ _

end Congruence

/-! ## 3. Files -/

section Files

variable {around : Surroundings σ} {pass : Pass}

theorem finish_lockstep (hopen : ∀ {s t}, Rel s t → t.branches.length = s.branches.length)
    (name name' : Bytes) (base : Nat) {s t : PassState σ} (h : Rel s t) :
    (finish name base s).Lockstep Rel (finish name' base t) := by
  have hnone : Branch.outermostAbove? base t.branches = none
      ↔ Branch.outermostAbove? base s.branches = none := by
    simp only [Branch.outermostAbove?, List.getLast?_eq_none_iff, ← List.length_eq_zero_iff,
      List.length_take, hopen h]
  unfold finish
  cases hs : Branch.outermostAbove? base s.branches with
  | none =>
    rw [hnone.mpr hs]
    exact .ok [] h
  | some b =>
    cases ht : Branch.outermostAbove? base t.branches with
    | none =>
      rw [hnone.mp ht] at hs
      cases hs
    | some b' => exact .error _ _ _ _

/-- **The rest of a file is gone through in lockstep**, wherever it is counted from, when the steps
in texts of its kind are, and the files that it includes. -/
theorem walk_lockstep (Kind : List Token → Prop) {path : List Bytes} {base : Nat}
    {enter enter' : Bytes → List Token → PassState σ → PassResult σ}
    (hdrop : ∀ {first rest} n, Kind (first :: rest) → Kind (rest.drop n))
    (hopen : ∀ {s t}, Rel s t → t.branches.length = s.branches.length)
    (hstep : ∀ {first rest s t} index index', Kind (first :: rest) → Rel s t →
      (step around pass path base index first rest s).Lockstep Rel
        (step around pass path base index' first rest t))
    (henter : ∀ {index used first rest emitted file inside s s₁ t₁}, Kind (first :: rest) →
      step around pass path base index first rest s = .enter used emitted file inside s₁ →
      Rel s₁ t₁ → (enter file inside s₁).Lockstep Rel (enter' file inside t₁))
    (name name' : Bytes) (index index' : Nat) {tokens : List Token} {s t : PassState σ}
    (hkind : Kind tokens) (h : Rel s t) :
    (walk around pass enter path name base index tokens s).Lockstep Rel
      (walk around pass enter' path name' base index' tokens t) := by
  induction hn : tokens.length using Nat.strongRecOn generalizing index index' tokens s t with
  | ind n ih =>
  cases tokens with
  | nil =>
    rw [walk, walk]
    exact finish_lockstep hopen name name' base h
  | cons first rest =>
    have hlen : ∀ used, (rest.drop (used - 1)).length < n := by
      intro used
      simp only [List.length_drop, List.length_cons] at hn ⊢
      omega
    rw [walk, walk]
    have hsteps := hstep index index' hkind h
    cases hleft : step around pass path base index first rest s with
    | fail e s₁ =>
      rw [hleft] at hsteps
      generalize step around pass path base index' first rest t = st at hsteps
      cases hsteps with
      | fail _ e' _ t₁ => exact .error _ _ _ _
    | next used emitted s₁ =>
      rw [hleft] at hsteps
      obtain ⟨t₁, hright, h₁⟩ := hsteps.of_next
      simp only [hright]
      exact (ih _ (hlen used) _ _ (hdrop _ hkind) h₁ rfl).prepend emitted
    | enter used emitted file inside s₁ =>
      rw [hleft] at hsteps
      obtain ⟨t₁, hright, h₁⟩ := hsteps.of_enter
      have hinner := henter hkind hleft h₁
      simp only [hright]
      generalize enter file inside s₁ = r at hinner
      generalize enter' file inside t₁ = r' at hinner
      cases hinner with
      | error e e' u u' => exact .error _ _ _ _
      | ok inner hu =>
        exact (ih _ (hlen used) _ _ (hdrop _ hkind) hu rfl).prepend (emitted ++ inner)

end Files

end EffectScript
