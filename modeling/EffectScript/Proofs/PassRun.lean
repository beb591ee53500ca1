import EffectScript.Conditional.Preprocessor

/-!
# Runs of a pass

`walk` takes a file to its end in one recursion that also puts the output together.  Here a run is a
relation between two *cursors* in one file: `Leads … a out b` says that steps take a pass from
cursor `a` to cursor `b` and put `out` into the output.  Runs compose, and can be taken apart
anywhere in between, which the recursion cannot.

The relation follows the steps that stay in the file.  The two are tied together in both
directions:

* `walk_of_leads`: what comes behind a run is what `walk` gives at its end, behind its output;
* `leads_of_walk`: a file that names no other file, and that `walk` takes to its end, is a run from
  its start to its end.

`Preprocessor.run_of_leads` and `Preprocessor.leads_of_run` carry this over to a call.
-/

namespace EffectScript

variable {σ : Type}

/-! ## 1. Cursors and runs -/

/-- Whether an id is neither a directive nor the end of a definition, so that a pass replaces it or
lets it stand. -/
def TokenId.isOrdinary (id : TokenId) : Bool := (Directive.ofId? id).isNone && id != eol

/-- A place in a file: its index, the tokens from there on, and the state in which a pass gets
there. -/
structure Cursor (σ : Type) where
  index : Nat
  tokens : List Token
  state : PassState σ

/-- Steps take a pass from one cursor to another and put some tokens into the output. -/
inductive Leads (around : Surroundings σ) (pass : Pass) (path : List Bytes) (base : Nat) :
    Cursor σ → List Token → Cursor σ → Prop
  | refl (a : Cursor σ) : Leads around pass path base a [] a
  | next {index used : Nat} {first : Token} {rest emitted more : List Token}
      {s s' : PassState σ} {b : Cursor σ}
      (hstep : step around pass path base index first rest s = .next used emitted s')
      (hrest : Leads around pass path base ⟨index + used, rest.drop (used - 1), s'⟩ more b) :
      Leads around pass path base ⟨index, first :: rest, s⟩ (emitted ++ more) b

section Runs

variable {around : Surroundings σ} {pass : Pass} {path : List Bytes} {base : Nat}

/-- Runs compose. -/
theorem Leads.trans {a b c : Cursor σ} {out more : List Token}
    (h₁ : Leads around pass path base a out b) (h₂ : Leads around pass path base b more c) :
    Leads around pass path base a (out ++ more) c := by
  induction h₁ with
  | refl a => exact h₂
  | next hstep hrest ih =>
    rw [List.append_assoc]
    exact .next hstep (ih h₂)

/-- A run of one step. -/
theorem Leads.one {index used : Nat} {first : Token} {rest after emitted : List Token}
    {s s' : PassState σ}
    (hstep : step around pass path base index first rest s = .next used emitted s')
    (hafter : rest.drop (used - 1) = after) :
    Leads around pass path base ⟨index, first :: rest, s⟩ emitted ⟨index + used, after, s'⟩ := by
  have h := Leads.next hstep (.refl _)
  rw [List.append_nil, hafter] at h
  exact h

/-! ## 2. Runs and `walk` -/

@[simp] theorem PassResult.prepend_nil (r : PassResult σ) : r.prepend [] = r := by
  obtain ⟨result, s⟩ := r
  cases result <;> rfl

theorem PassResult.prepend_append (xs ys : List Token) (r : PassResult σ) :
    r.prepend (xs ++ ys) = (r.prepend ys).prepend xs := by
  obtain ⟨result, s⟩ := r
  cases result with
  | error e => rfl
  | ok out => simp [PassResult.prepend, Except.map]

theorem PassResult.prepend_eq_ok {xs out : List Token} {r : PassResult σ} {s : PassState σ}
    (h : r.prepend xs = (.ok out, s)) : ∃ more, r = (.ok more, s) ∧ out = xs ++ more := by
  obtain ⟨result, s'⟩ := r
  cases result with
  | error e => simp [PassResult.prepend, Except.map] at h
  | ok more =>
    simp only [PassResult.prepend, Except.map, Prod.mk.injEq, Except.ok.injEq] at h
    obtain ⟨rfl, rfl⟩ := h
    exact ⟨more, rfl, rfl⟩

/-- **A run is a part of `walk`**: what is left to do is done at its end. -/
theorem walk_of_leads (enter : Bytes → List Token → PassState σ → PassResult σ) (name : Bytes)
    {a b : Cursor σ} {out : List Token} (h : Leads around pass path base a out b) :
    walk around pass enter path name base a.index a.tokens a.state
      = (walk around pass enter path name base b.index b.tokens b.state).prepend out := by
  induction h with
  | refl a => rw [PassResult.prepend_nil]
  | next hstep hrest ih =>
    rw [walk, PassResult.prepend_append, ← ih]
    simp only [hstep]

theorem branchStep_ne_enter {tokens emitted file : List Token} {size used : Nat} {live : Bool}
    {name : Bytes} {s s' : PassState σ} :
    branchStep tokens size live s ≠ .enter used emitted name file s' := by
  unfold branchStep Step.failWith
  split
  · simp
  · split <;> simp

theorem withBranch_ne_enter {emitted file : List Token} {used : Nat} {directive : String}
    {name : Bytes} {s s' : PassState σ} {go : Branch → Step σ}
    (h : ∀ top, go top ≠ .enter used emitted name file s') :
    withBranch base directive s go ≠ .enter used emitted name file s' := by
  unfold withBranch Step.failWith
  split
  · simp
  · split
    · simp
    · exact h _

theorem directiveStep_ne_enter {index used : Nat} {tokens emitted file : List Token}
    {name : Bytes} {s s' : PassState σ} {d : Directive} (hd : d ≠ .includeFile) :
    directiveStep around pass path base index tokens s d ≠ .enter used emitted name file s' := by
  cases d with
  | includeFile => exact absurd rfl hd
  | define late =>
    simp only [directiveStep, defineStep, Step.failWith]
    repeat' split
    all_goals simp
  | undefine =>
    simp only [directiveStep, undefineStep, Step.failWith]
    split <;> simp
  | ifTest negated late =>
    simp only [directiveStep, ifTestStep, Step.failWith]
    split
    · simp
    · split
      · simp
      · exact branchStep_ne_enter
  | ifVar negated =>
    simp only [directiveStep, ifVarStep, Step.failWith]
    split
    · simp
    · exact branchStep_ne_enter
  | elifTest =>
    refine withBranch_ne_enter fun top => ?_
    simp only [Step.failWith]
    repeat' split
    all_goals first | exact branchStep_ne_enter | simp
  | elifVar =>
    refine withBranch_ne_enter fun top => ?_
    simp only [Step.failWith]
    repeat' split
    all_goals first | exact branchStep_ne_enter | simp
  | elseBranch =>
    refine withBranch_ne_enter fun top => ?_
    simp only [Step.failWith]
    repeat' split
    all_goals first | exact branchStep_ne_enter | simp
  | endif => exact withBranch_ne_enter fun top => by simp
  | warning => simp [directiveStep, warningStep]
  | registerEnv => simp [directiveStep, registerEnvStep]

theorem Directive.eq_includeFile {id : TokenId}
    (h : Directive.ofId? id = some .includeFile) : id = TokenId.includeFile := by
  unfold Directive.ofId? at h
  split at h <;> first | rfl | cases h

/-- Only the directive that names a file leads into one. -/
theorem step_ne_enter {index used : Nat} {first : Token} {rest emitted file : List Token}
    {name : Bytes} {s s' : PassState σ} (hfirst : first ≠ .lit TokenId.includeFile) :
    step around pass path base index first rest s ≠ .enter used emitted name file s' := by
  cases first with
  | lit id =>
    simp only [step]
    split
    · rename_i d hd
      refine directiveStep_ne_enter ?_
      rintro rfl
      exact hfirst (congrArg Token.lit (Directive.eq_includeFile hd))
    · unfold plainStep
      repeat' split
      all_goals simp
  | skipOne => simp [step, hiddenStep]
  | skipOpen => simp [step, hiddenStep]
  | skipClose => simp [step, hiddenStep]

/-- **`walk` is a run** on a file that names no other file, when it takes it to its end. -/
theorem leads_of_walk {enter : Bytes → List Token → PassState σ → PassResult σ} {name : Bytes}
    {index : Nat} {tokens out : List Token} {s s' : PassState σ}
    (hfile : .lit TokenId.includeFile ∉ tokens)
    (h : walk around pass enter path name base index tokens s = (.ok out, s')) :
    ∃ b : Cursor σ, b.tokens = [] ∧ Leads around pass path base ⟨index, tokens, s⟩ out b := by
  induction hn : tokens.length using Nat.strongRecOn generalizing index tokens out s with
  | ind n ih =>
  cases tokens with
  | nil =>
    rw [walk, finish] at h
    split at h
    · cases h
      exact ⟨_, rfl, .refl _⟩
    · cases h
  | cons first rest =>
    rw [walk] at h
    split at h
    · cases h
    · rename_i used emitted s₁ hstep
      obtain ⟨more, hmore, rfl⟩ := PassResult.prepend_eq_ok h
      have hlen : (rest.drop (used - 1)).length < n := by
        simp only [List.length_drop, List.length_cons] at hn ⊢
        omega
      have hrest : .lit TokenId.includeFile ∉ rest.drop (used - 1) :=
        fun hmem => hfile (List.mem_cons_of_mem _ (List.mem_of_mem_drop hmem))
      obtain ⟨b, hb, hleads⟩ := ih _ hlen hrest hmore rfl
      exact ⟨b, hb, .next hstep hleads⟩
    · rename_i hstep
      refine absurd hstep (step_ne_enter ?_)
      rintro rfl
      exact hfile List.mem_cons_self

end Runs

/-! ## 3. Calls -/

namespace Preprocessor

/-- The cursor at the start of a call. -/
def startCursor (p : Preprocessor σ) (pass : Pass) (tokens : List Token) (table : SpellingTable)
    (source : σ) : Cursor σ :=
  ⟨0, tokens, p.start pass table source⟩

/-- The preprocessor without platform, variables, files and seeds. -/
def bare : Preprocessor Unit :=
  ⟨⟨.empty, fun _ => none, none⟩, .empty, .empty, .empty, .empty, .empty, []⟩

theorem ofNumber?_number (pass : Pass) : Pass.ofNumber? pass.number = some pass := by
  cases pass <;> rfl

/-- A call is a walk through its tokens as a file without a name, with room for files inside. -/
theorem process_eq_walk (p : Preprocessor σ) (pass : Pass) (tokens : List Token)
    (table : SpellingTable) (source : σ) :
    ∃ enter, process p.around pass (p.levels table source) [] [] tokens (p.start pass table source)
      = walk p.around pass enter [] [] 0 0 tokens (p.start pass table source) := by
  unfold levels
  exact ⟨_, rfl⟩

/-- **A call from a run**: a run over all tokens that leaves no conditional open is what the call
does. -/
theorem run_of_leads {p : Preprocessor σ} {pass : Pass} {tokens out : List Token}
    {table : SpellingTable} {source : σ} {index : Nat} {s : PassState σ}
    (h : Leads p.around pass [] 0 (p.startCursor pass tokens table source) out ⟨index, [], s⟩)
    (hs : s.branches = []) :
    p.run pass.number tokens table source
      = ⟨.ok out, s.table, s.log, s.env,
          { p with early := s.early, late := s.late, branches := [] }, s.source⟩ := by
  obtain ⟨enter, henter⟩ := p.process_eq_walk pass tokens table source
  have hend : walk p.around pass enter [] [] 0 index [] s = (.ok [], s) := by
    rw [walk]
    simp [finish, Branch.outermostAbove?, hs]
  have hwalk := walk_of_leads enter [] h
  rw [hend] at hwalk
  simp only [startCursor, PassResult.prepend, Except.map, List.append_nil] at hwalk
  simp only [run, ofNumber?_number, henter, hwalk, hs]

/-- **A run from a call** that succeeds, when its tokens name no file. -/
theorem leads_of_run {p : Preprocessor σ} {pass : Pass} {tokens out : List Token}
    {table : SpellingTable} {source : σ} (hfile : .lit TokenId.includeFile ∉ tokens)
    (h : (p.run pass.number tokens table source).result = .ok out) :
    ∃ b : Cursor σ, b.tokens = [] ∧
      Leads p.around pass [] 0 (p.startCursor pass tokens table source) out b := by
  obtain ⟨enter, henter⟩ := p.process_eq_walk pass tokens table source
  simp only [run, ofNumber?_number, henter] at h
  exact leads_of_walk hfile (Prod.ext h rfl)

end Preprocessor

end EffectScript
