import Mathlib
import EffectScript.Proofs.Deeds

/-!
# A call starts afresh

A preprocessor keeps what its last call left, whether the call succeeded or broke off somewhere
inside an included file: the macros of both passes and the conditionals that were open.  The next
call has no use for any of it.  A first pass sets all of it back.  A second pass keeps the macros of
the first, and here it is shown that it never looks at them: it does the same with others in their
place (`process_withEarly`), and hands them on.

Main statement: `run_afterCalls`.  After any calls, a call gives what it gives on the preprocessor
as it was before them.
-/

namespace EffectScript

variable {σ : Type}

/-! ## 1. Other macros of the first pass -/

/-- The state with other macros of the first pass. -/
def PassState.withEarly (s : PassState σ) (macros : MacroTable) : PassState σ :=
  { s with early := macros }

/-- The step to a state with other macros of the first pass. -/
def Step.withEarly (macros : MacroTable) : Step σ → Step σ
  | .next used emitted s => .next used emitted (s.withEarly macros)
  | .enter used emitted name file s => .enter used emitted name file (s.withEarly macros)
  | .fail e s => .fail e (s.withEarly macros)

/-- The result with other macros of the first pass. -/
def PassResult.withEarly (macros : MacroTable) (r : PassResult σ) : PassResult σ :=
  (r.1, r.2.withEarly macros)

theorem PassResult.prepend_withEarly (macros : MacroTable) (emitted : List Token)
    (r : PassResult σ) :
    (r.prepend emitted).withEarly macros = (r.withEarly macros).prepend emitted :=
  rfl

/-! ## 2. A step of the second pass -/

section Steps

variable {around : Surroundings σ} {path : List Bytes} {base index : Nat} {tokens : List Token}
  {s : PassState σ} {macros : MacroTable}

theorem testVariable_withEarly (around : Surroundings σ) (s : PassState σ) (macros : MacroTable)
    (id : TokenId) :
    (s.withEarly macros).testVariable around id
      = ((s.testVariable around id).1, (s.testVariable around id).2.withEarly macros) := by
  unfold PassState.testVariable PassState.withEarly
  dsimp only
  split <;> rfl

theorem branchStep_withEarly (tokens : List Token) (used : Nat) (live : Bool) (s : PassState σ) :
    branchStep tokens used live (s.withEarly macros)
      = (branchStep tokens used live s).withEarly macros := by
  unfold branchStep
  split
  · rfl
  · split <;> rfl

theorem withBranch_withEarly {name : String} {go go' : Branch → Step σ}
    (h : ∀ top, go' top = (go top).withEarly macros) :
    withBranch base name (s.withEarly macros) go'
      = (withBranch base name s go).withEarly macros := by
  unfold withBranch
  cases hbranches : s.branches with
  | nil =>
    have hnone : (s.withEarly macros).branches = [] := hbranches
    rw [hnone]
    rfl
  | cons top outer =>
    have hsome : (s.withEarly macros).branches = top :: outer := hbranches
    rw [hsome]
    dsimp only
    split
    · rfl
    · exact h top

theorem forget_withEarly (s : PassState σ) (macros : MacroTable) (id : TokenId) :
    (s.withEarly macros).forget .second id = (s.forget .second id).withEarly macros := by
  unfold PassState.forget
  have hcurrent : (s.withEarly macros).current .second = s.current .second := rfl
  have hlate : (s.withEarly macros).late = s.late := rfl
  rw [hcurrent, hlate]
  split
  · rfl
  · split <;> rfl

theorem directiveStep_withEarly (d : Directive) :
    directiveStep around .second path base index tokens (s.withEarly macros) d
      = (directiveStep around .second path base index tokens s d).withEarly macros := by
  cases d with
  | includeFile =>
    simp only [directiveStep, includeStep, Step.failWith, PassState.withEarly]
    repeat' split
    all_goals rfl
  | define late =>
    simp only [directiveStep, defineStep, Step.failWith]
    split <;> rfl
  | undefine =>
    simp only [directiveStep, undefineStep, Step.failWith]
    split
    · rfl
    · exact congrArg (Step.next 2 _) (forget_withEarly s macros _)
  | ifTest negated late =>
    simp only [directiveStep, ifTestStep, Step.failWith]
    have hscope : (s.withEarly macros).scope around .second = s.scope around .second := rfl
    rw [hscope]
    split
    · rfl
    · exact branchStep_withEarly _ _ _ (s.push _)
  | ifVar negated =>
    simp only [directiveStep, ifVarStep, Step.failWith]
    split
    · rfl
    · rw [testVariable_withEarly]
      exact branchStep_withEarly _ _ _ (PassState.push _ _)
  | elifTest =>
    refine withBranch_withEarly fun top => ?_
    have hscope : (s.withEarly macros).scope around .second = s.scope around .second := rfl
    rw [hscope]
    dsimp only [Step.failWith]
    repeat' split
    · rfl
    · rfl
    · rfl
    · exact branchStep_withEarly _ _ _ s
    · exact branchStep_withEarly _ _ _ (s.setTop _)
  | elifVar =>
    refine withBranch_withEarly fun top => ?_
    simp only [Step.failWith, testVariable_withEarly]
    repeat' split
    · rfl
    · rfl
    · rfl
    · exact branchStep_withEarly _ _ _ s
    · exact branchStep_withEarly _ _ _ (PassState.setTop _ _)
  | elseBranch =>
    refine withBranch_withEarly fun top => ?_
    dsimp only [Step.failWith]
    repeat' split
    · rfl
    · rfl
    · exact branchStep_withEarly _ _ _ (s.setTop _)
  | endif => exact withBranch_withEarly fun top => rfl
  | warning => rfl
  | registerEnv => rfl

theorem replay_withEarly (s : PassState σ) (macros : MacroTable) (unit : List Token) :
    replay (s.withEarly macros) unit = (replay s unit).withEarly macros := by
  unfold replay
  repeat' split
  all_goals rfl

/-- **A step of the second pass does not look at the macros of the first.** -/
theorem step_withEarly (around : Surroundings σ) (path : List Bytes) (base index : Nat)
    (first : Token) (rest : List Token) (s : PassState σ) (macros : MacroTable) :
    step around .second path base index first rest (s.withEarly macros)
      = (step around .second path base index first rest s).withEarly macros := by
  have hhidden : ∀ n tokens, hiddenStep .second n tokens (s.withEarly macros)
      = (hiddenStep .second n tokens s).withEarly macros := by
    intro n tokens
    simp only [hiddenStep, if_true, replay_withEarly]
    rfl
  cases first with
  | lit id =>
    simp only [step]
    split
    · exact directiveStep_withEarly _
    · split
      · rfl
      · simp only [plainStep, PassState.current, PassState.withEarly]
        split <;> rfl
  | skipOne => exact hhidden _ _
  | skipOpen => exact hhidden _ _
  | skipClose => exact hhidden _ _

end Steps

/-! ## 3. Files and calls -/

theorem walk_withEarly {around : Surroundings σ}
    {enter : Bytes → List Token → PassState σ → PassResult σ} (macros : MacroTable)
    (henter : ∀ file inside s,
      enter file inside (s.withEarly macros) = (enter file inside s).withEarly macros)
    (path : List Bytes) (name : Bytes) (base index : Nat) (tokens : List Token) (s : PassState σ) :
    walk around .second enter path name base index tokens (s.withEarly macros)
      = (walk around .second enter path name base index tokens s).withEarly macros := by
  induction hn : tokens.length using Nat.strongRecOn generalizing index tokens s with
  | ind n ih =>
  cases tokens with
  | nil =>
    rw [walk, walk]
    unfold finish
    have hbranches : (s.withEarly macros).branches = s.branches := rfl
    rw [hbranches]
    split <;> rfl
  | cons first rest =>
    have hlen : ∀ used, (rest.drop (used - 1)).length < n := by
      intro used
      simp only [List.length_drop, List.length_cons] at hn ⊢
      omega
    rw [walk, walk, step_withEarly]
    cases step around .second path base index first rest s with
    | fail e s₁ => rfl
    | next used emitted s₁ =>
      dsimp only [Step.withEarly]
      rw [ih _ (hlen used) _ _ s₁ rfl, PassResult.prepend_withEarly]
    | enter used emitted file inside s₁ =>
      dsimp only [Step.withEarly]
      rw [henter]
      cases hinner : enter file inside s₁ with
      | mk answer s₂ =>
        cases answer with
        | error e => rfl
        | ok inner =>
          dsimp only [PassResult.withEarly]
          rw [ih _ (hlen used) _ _ s₂ rfl]
          rfl

/-- **The second pass does not look at the macros of the first**, and leaves them as they are. -/
theorem process_withEarly {around : Surroundings σ} (macros : MacroTable) (levels : Nat)
    (path : List Bytes) (name : Bytes) (tokens : List Token) (s : PassState σ) :
    process around .second levels path name tokens (s.withEarly macros)
      = (process around .second levels path name tokens s).withEarly macros := by
  induction levels generalizing path name tokens s with
  | zero => rfl
  | succ levels ih =>
    rw [process, process]
    exact walk_withEarly macros (fun file inside s => ih (file :: path) file inside s) path name
      s.branches.length 0 tokens s

/-- What a call is given. -/
structure Call (σ : Type) where
  pass : Int
  tokens : List Token
  table : SpellingTable
  /-- The state of the resolver. -/
  source : σ

namespace Preprocessor

/-- The preprocessor after some calls, in order. -/
def afterCalls (p : Preprocessor σ) (calls : List (Call σ)) : Preprocessor σ :=
  calls.foldl (fun p c => (p.run c.pass c.tokens c.table c.source).after) p

/-- A call changes macros and open conditionals, and none of the settings. -/
theorem run_after_eq (p : Preprocessor σ) (pass : Int) (tokens : List Token) (table : SpellingTable)
    (source : σ) :
    ∃ early late branches, (p.run pass tokens table source).after
      = { p with early := early, late := late, branches := branches } := by
  unfold run
  split
  · exact ⟨_, _, _, rfl⟩
  · exact ⟨_, _, _, rfl⟩

theorem afterCalls_eq (p : Preprocessor σ) (calls : List (Call σ)) :
    ∃ early late branches,
      p.afterCalls calls = { p with early := early, late := late, branches := branches } := by
  induction calls generalizing p with
  | nil => exact ⟨_, _, _, rfl⟩
  | cons c calls ih =>
    obtain ⟨early, late, branches, hafter⟩ := p.run_after_eq c.pass c.tokens c.table c.source
    obtain ⟨early', late', branches', hcalls⟩ := ih (p.run c.pass c.tokens c.table c.source).after
    refine ⟨early', late', branches', ?_⟩
    rw [afterCalls, List.foldl_cons]
    rw [afterCalls] at hcalls
    rw [hcalls, hafter]

/-- A second pass gives the same with other things left by the last call, but for the macros of the
first pass that it hands on. -/
theorem run_second_eq (p : Preprocessor σ) (early late : MacroTable) (branches : List Branch)
    (tokens : List Token) (table : SpellingTable) (source : σ) :
    let q : Preprocessor σ := { p with early := early, late := late, branches := branches }
    let report := p.run Pass.second.number tokens table source
    q.run Pass.second.number tokens table source
      = { report with after := { report.after with early := early } } := by
  intro q report
  have hprocess : process q.around .second (q.levels table source) [] [] tokens
      (q.start .second table source)
        = (process p.around .second (p.levels table source) [] [] tokens
            (p.start .second table source)).withEarly early :=
    process_withEarly early _ [] [] tokens (p.start .second table source)
  simp only [report, run, ofNumber?_number, hprocess]
  rfl

/-- **A call does not remember those before it.**  Whatever calls were made of a preprocessor, and
however they ended, the next call gives the result, the spellings, the lines, the texts and the
depth that it gives on the preprocessor before them, and leaves the same macros of its pass; a first
pass also leaves the same of the second. -/
theorem run_afterCalls (p : Preprocessor σ) (calls : List (Call σ)) (pass : Pass)
    (tokens : List Token) (table : SpellingTable) (source : σ) :
    let fresh := p.run pass.number tokens table source
    let later := (p.afterCalls calls).run pass.number tokens table source
    later.result = fresh.result ∧ later.table = fresh.table ∧ later.log = fresh.log ∧
      later.env = fresh.env ∧ later.source = fresh.source ∧
      later.after.depth = fresh.after.depth ∧
      (∀ name, later.after.lookup? pass.number name = fresh.after.lookup? pass.number name) ∧
      (pass = .first → ∀ name, later.after.lookup? 1 name = fresh.after.lookup? 1 name) := by
  intro fresh later
  obtain ⟨early, late, branches, hcalls⟩ := p.afterCalls_eq calls
  cases pass with
  | first =>
    have hlater : later = fresh := by
      simp only [later, hcalls]
      rfl
    rw [hlater]
    exact ⟨rfl, rfl, rfl, rfl, rfl, rfl, fun _ => rfl, fun _ _ => rfl⟩
  | second =>
    have hlater : later = { fresh with after := { fresh.after with early := early } } := by
      simp only [later, hcalls]
      exact p.run_second_eq early late branches tokens table source
    rw [hlater]
    refine ⟨rfl, rfl, rfl, rfl, rfl, rfl, fun _ => rfl, ?_⟩
    rintro ⟨⟩

/-- A call that breaks off inside a conditional, with a macro defined, and then one that shows the
name of that macro. -/
theorem run_afterCalls_brokenOff :
    let broken : Call Unit :=
      ⟨0, [.lit TokenId.define, .lit 100, .lit 101, .lit TokenId.eol, .lit TokenId.ifTest,
        .lit TokenId.one, .lit 3], .empty, ()⟩
    let p := Preprocessor.bare
    let fresh := p.run 0 [.lit 100] .empty ()
    let later := (p.afterCalls [broken]).run 0 [.lit 100] .empty ()
    (p.afterCalls [broken]).depth = 1 ∧ (p.afterCalls [broken]).early.defines 100 ∧
      later.result = .ok [.lit 100] ∧ later.log = fresh.log ∧
      later.after.depth = fresh.after.depth ∧
      ∀ name, later.after.lookup? 1 name = fresh.after.lookup? 1 name := by
  intro broken p fresh later
  obtain ⟨hresult, -, hlog, -, -, hdepth, -, hlookup⟩ :=
    run_afterCalls p [broken] .first [.lit 100] .empty ()
  have hfresh : fresh.result = .ok [.lit 100] := by cbv
  exact ⟨by cbv, by cbv, hresult.trans hfresh, hlog, hdepth, hlookup rfl⟩

end Preprocessor

end EffectScript
