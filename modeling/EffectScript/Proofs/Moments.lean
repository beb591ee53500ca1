import EffectScript.Proofs.Deeds

/-!
# Moments of a pass

`process` goes into an included file by calling itself, so the place where a pass stands is spread
over the calls that are open.  Here it is one value, a *moment*: the files that are open, the
innermost first, with what is left of each, and the state.  A pass moves from moment to moment by a
step in the innermost file, by entering a file, and by leaving one at its end.

A run of moments has an output and a *story*: what it showed, defined and undefined, in order.  So
"from here until the next definition of a name", across the borders of files, can be said.

Main statements:

* `runs_of_process`: what `process` does to the end is a run;
* `Runs.invariant`: what every move keeps, every run keeps;
* `Runs.split`: a run to the end goes on where a shorter one stops.
-/

namespace EffectScript

variable {σ : Type}

/-! ## 1. Moments and moves -/

/-- A file that a pass is going through. -/
structure OpenFile where
  /-- The names of the files around it and its own, the innermost first. -/
  path : List Bytes
  /-- The number of conditionals that were open where it began. -/
  base : Nat
  index : Nat
  /-- What is left of it. -/
  tokens : List Token

/-- Where a pass stands. -/
structure Moment (σ : Type) where
  files : List OpenFile
  state : PassState σ

/-- What a reader of the output, or of the macros, notices. -/
inductive Event where
  /-- A token is put into the output for all to see. -/
  | shown (id : TokenId)
  /-- A macro is defined, by the late form or not, inside a conditional or not. -/
  | defined (name : TokenId) (body : List Token) (late inside : Bool)
  /-- A macro is undefined. -/
  | undefined (name : TokenId)
  deriving DecidableEq

/-- No definition of the id is noticed. -/
def NeverDefined (id : TokenId) (story : List Event) : Prop :=
  ∀ body late inside, Event.defined id body late inside ∉ story

theorem NeverDefined.of_append {id : TokenId} {story more : List Event}
    (h : NeverDefined id (story ++ more)) : NeverDefined id story ∧ NeverDefined id more :=
  ⟨fun body late inside hmem => h body late inside (List.mem_append_left _ hmem),
    fun body late inside hmem => h body late inside (List.mem_append_right _ hmem)⟩

/-- The directive that a token is. -/
def Token.directive? : Token → Option Directive
  | .lit id => Directive.ofId? id
  | _ => none

/-- What there is to notice in a step that takes the first token and what belongs to it. -/
def stepEvents (first : Token) (rest emitted : List Token) (s : PassState σ) : List Event :=
  match first.directive?, rest with
  | some (.define late), .lit name :: after =>
    [.defined name (bodyOf after) late (!s.branches.isEmpty)]
  | some .undefine, name :: _ => [.undefined name.id]
  | _, _ => (visible emitted).map .shown

theorem stepEvents_of_none {first : Token} (h : first.directive? = none) (rest emitted : List Token)
    (s : PassState σ) : stepEvents first rest emitted s = (visible emitted).map .shown := by
  simp only [stepEvents, h]

theorem stepEvents_of_isHidden {first : Token} {d : Directive} (h : first.directive? = some d)
    (hd : d.isHidden) (rest emitted : List Token) (s : PassState σ) :
    stepEvents first rest emitted s = (visible emitted).map .shown := by
  simp only [stepEvents, h]
  cases d <;> first | rfl | cases hd

/-- A pass moves from one moment to another: what is noticed, and what is put out. -/
inductive Moves (around : Surroundings σ) (pass : Pass) :
    Moment σ → List Event → List Token → Moment σ → Prop
  /-- By a step that stays in its file. -/
  | next {path : List Bytes} {base index used : Nat} {first : Token} {rest emitted : List Token}
      {outer : List OpenFile} {s s' : PassState σ}
      (hstep : step around pass path base index first rest s = .next used emitted s') :
      Moves around pass ⟨⟨path, base, index, first :: rest⟩ :: outer, s⟩
        (stepEvents first rest emitted s) emitted
        ⟨⟨path, base, index + used, rest.drop (used - 1)⟩ :: outer, s'⟩
  /-- By a step into another file. -/
  | enter {path : List Bytes} {base index used : Nat} {first : Token}
      {rest emitted file : List Token} {name : Bytes} {outer : List OpenFile} {s s' : PassState σ}
      (hstep : step around pass path base index first rest s = .enter used emitted name file s') :
      Moves around pass ⟨⟨path, base, index, first :: rest⟩ :: outer, s⟩ [] emitted
        ⟨⟨name :: path, s'.branches.length, 0, file⟩ ::
          ⟨path, base, index + used, rest.drop (used - 1)⟩ :: outer, s'⟩
  /-- By coming to the end of a file that leaves no conditional open. -/
  | leave {path : List Bytes} {base index : Nat} {outer : List OpenFile} {s : PassState σ}
      (hend : Branch.outermostAbove? base s.branches = none) :
      Moves around pass ⟨⟨path, base, index, []⟩ :: outer, s⟩ [] [] ⟨outer, s⟩

/-- Moves, one after the other. -/
inductive Runs (around : Surroundings σ) (pass : Pass) :
    Moment σ → List Event → List Token → Moment σ → Prop
  | refl (a : Moment σ) : Runs around pass a [] [] a
  | move {a b c : Moment σ} {events story : List Event} {emitted out : List Token}
      (hmove : Moves around pass a events emitted b) (hrest : Runs around pass b story out c) :
      Runs around pass a (events ++ story) (emitted ++ out) c

section Runs

variable {around : Surroundings σ} {pass : Pass}

/-- Runs compose. -/
theorem Runs.trans {a b c : Moment σ} {story story' : List Event} {out out' : List Token}
    (h₁ : Runs around pass a story out b) (h₂ : Runs around pass b story' out' c) :
    Runs around pass a (story ++ story') (out ++ out') c := by
  induction h₁ with
  | refl a => exact h₂
  | move hmove _ ih =>
    rw [List.append_assoc, List.append_assoc]
    exact .move hmove (ih h₂)

/-- **What every move keeps, every run keeps**: a property of the moment, of what was noticed, and
of what was put out so far. -/
theorem Runs.invariant (I : Moment σ → List Event → List Token → Prop)
    (hmove : ∀ {a b : Moment σ} {story events : List Event} {out emitted : List Token},
      I a story out → Moves around pass a events emitted b → I b (story ++ events) (out ++ emitted))
    {a b : Moment σ} {story : List Event} {out : List Token}
    (ha : I a [] []) (h : Runs around pass a story out b) : I b story out := by
  -- What was noticed and put out before the run is arbitrary in the induction.
  suffices hbehind : ∀ before done, I a before done → I b (before ++ story) (done ++ out) from
    hbehind [] [] ha
  clear ha
  induction h with
  | refl a =>
    intro before done hbefore
    simpa using hbefore
  | move hfirst _ ih =>
    intro before done hbefore
    rw [← List.append_assoc, ← List.append_assoc]
    exact ih _ _ (hmove hbefore hfirst)

/-- Whatever the resolver is asked for in a good state leaves it in one. -/
def Surroundings.Keeps (around : Surroundings σ) (good : σ → Prop) : Prop :=
  ∀ r, around.resolver = some r → ∀ name source, good source → good (r.resolve name source).source

/-- The state of such a resolver stays good in every move, -/
theorem Moves.keepsGood {good : σ → Prop} (hkeeps : around.Keeps good) {a b : Moment σ}
    {events : List Event} {emitted : List Token} (h : Moves around pass a events emitted b)
    (ha : good a.state.source) : good b.state.source := by
  cases h with
  | next hstep =>
    rw [(step_deed hstep).source_eq]
    exact ha
  | enter hstep =>
    obtain ⟨_, _, r, _, -, -, -, -, hr, -, -, rfl⟩ := step_eq_enter hstep
    exact hkeeps r hr _ _ ha
  | leave hend => exact ha

/-- and so in every run. -/
theorem Runs.keepsGood {good : σ → Prop} (hkeeps : around.Keeps good) {a b : Moment σ}
    {story : List Event} {out : List Token} (h : Runs around pass a story out b)
    (ha : good a.state.source) : good b.state.source :=
  h.invariant (fun m _ _ => good m.state.source) (fun hm hmove => hmove.keepsGood hkeeps hm) ha

/-- A moment leaves no choice. -/
theorem Moves.unique {a b c : Moment σ} {events events' : List Event}
    {emitted emitted' : List Token} (h : Moves around pass a events emitted b)
    (h' : Moves around pass a events' emitted' c) :
    events = events' ∧ emitted = emitted' ∧ b = c := by
  cases h with
  | next hstep =>
    cases h' with
    | next hstep' =>
      rw [hstep] at hstep'
      cases hstep'
      exact ⟨rfl, rfl, rfl⟩
    | enter hstep' =>
      rw [hstep] at hstep'
      cases hstep'
  | enter hstep =>
    cases h' with
    | next hstep' =>
      rw [hstep] at hstep'
      cases hstep'
    | enter hstep' =>
      rw [hstep] at hstep'
      cases hstep'
      exact ⟨rfl, rfl, rfl⟩
  | leave hend =>
    cases h' with
    | leave hend' => exact ⟨rfl, rfl, rfl⟩

/-- **A run to the end goes on where a shorter one stops.** -/
theorem Runs.split {a b c : Moment σ} {story story' : List Event} {out out' : List Token}
    (h : Runs around pass a story out b) (h' : Runs around pass a story' out' c)
    (hc : c.files = []) : ∃ more rest, story' = story ++ more ∧ out' = out ++ rest ∧
      Runs around pass b more rest c := by
  induction h generalizing story' out' with
  | refl a => exact ⟨story', out', rfl, rfl, h'⟩
  | move hmove _ ih =>
    cases h' with
    | refl => cases hmove <;> cases hc
    | move hmove' hrest' =>
      obtain ⟨rfl, rfl, rfl⟩ := hmove.unique hmove'
      obtain ⟨more, rest, rfl, rfl, hrest⟩ := ih hrest'
      exact ⟨more, rest, (List.append_assoc _ _ _).symm, (List.append_assoc _ _ _).symm, hrest⟩

/-! ## 2. What `process` does is a run -/

/-- What `walk` does to the end of a file is a run, when that holds of the files it enters. -/
theorem runs_of_walk {enter : Bytes → List Token → PassState σ → PassResult σ} {path : List Bytes}
    (henter : ∀ {file : Bytes} {inside inner : List Token} {s s' : PassState σ},
      enter file inside s = (.ok inner, s') → ∀ outer, ∃ story,
        Runs around pass ⟨⟨file :: path, s.branches.length, 0, inside⟩ :: outer, s⟩ story inner
          ⟨outer, s'⟩)
    {name : Bytes} {base index : Nat} {tokens out : List Token} {s s' : PassState σ}
    (h : walk around pass enter path name base index tokens s = (.ok out, s'))
    (outer : List OpenFile) :
    ∃ story, Runs around pass ⟨⟨path, base, index, tokens⟩ :: outer, s⟩ story out ⟨outer, s'⟩ := by
  induction hn : tokens.length using Nat.strongRecOn generalizing index tokens out s with
  | ind n ih =>
  cases tokens with
  | nil =>
    rw [walk, finish] at h
    split at h
    · rename_i hend
      cases h
      exact ⟨_, .move (.leave hend) (.refl _)⟩
    · cases h
  | cons first rest =>
    have hlen : ∀ used, (rest.drop (used - 1)).length < n := by
      intro used
      simp only [List.length_drop, List.length_cons] at hn ⊢
      omega
    rw [walk] at h
    split at h
    · cases h
    · rename_i used emitted s₁ hstep
      obtain ⟨more, hmore, rfl⟩ := PassResult.prepend_eq_ok h
      obtain ⟨story, hruns⟩ := ih _ (hlen used) hmore rfl
      exact ⟨_, .move (.next hstep) hruns⟩
    · rename_i used emitted file inside s₁ hstep
      split at h
      · cases h
      · rename_i inner s₂ hinner
        obtain ⟨more, hmore, rfl⟩ := PassResult.prepend_eq_ok h
        obtain ⟨story, hruns⟩ := ih _ (hlen used) hmore rfl
        obtain ⟨storyInside, hinside⟩ := henter hinner
          (⟨path, base, index + used, rest.drop (used - 1)⟩ :: outer)
        rw [List.append_assoc]
        exact ⟨_, .move (.enter hstep) (hinside.trans hruns)⟩

/-- **What `process` does to the end is a run** through the file, whatever other files are open. -/
theorem runs_of_process {levels : Nat} {path : List Bytes} {name : Bytes} {tokens out : List Token}
    {s s' : PassState σ} (h : process around pass levels path name tokens s = (.ok out, s'))
    (outer : List OpenFile) :
    ∃ story, Runs around pass ⟨⟨path, s.branches.length, 0, tokens⟩ :: outer, s⟩ story out
      ⟨outer, s'⟩ := by
  induction levels generalizing path name tokens out s s' outer with
  | zero => cases h
  | succ levels ih => exact runs_of_walk (fun hfile outer => ih hfile outer) h outer

/-- What a run in one file leads through is a run of moments. -/
theorem Leads.runs {path : List Bytes} {base : Nat} {a b : Cursor σ} {out : List Token}
    (h : Leads around pass path base a out b) (outer : List OpenFile) :
    ∃ story, Runs around pass ⟨⟨path, base, a.index, a.tokens⟩ :: outer, a.state⟩ story out
      ⟨⟨path, base, b.index, b.tokens⟩ :: outer, b.state⟩ := by
  induction h with
  | refl a => exact ⟨[], .refl _⟩
  | next hstep _ ih =>
    obtain ⟨story, hruns⟩ := ih
    exact ⟨_, .move (.next hstep) hruns⟩

end Runs

/-! ## 3. Calls -/

namespace Preprocessor

/-- What adding a seed does: its value is read, its name gets an id, and it is defined for its
pass. -/
theorem addSeed_eq_ok {p p' : Preprocessor σ} {seed : Seed} (h : p.addSeed seed = .ok p') :
    ∃ script id table, Script.read seed.value = .ok script ∧
      p.seedTable.intern seed.name = .ok (id, table) ∧
      (p' = { p with
          seedTable := table.merge script.table
          earlySeeds := p.earlySeeds.define id ⟨script.tokens, 0⟩ } ∨
        p' = { p with
          seedTable := table.merge script.table
          lateSeeds := p.lateSeeds.define id ⟨script.tokens, 0⟩ }) := by
  unfold addSeed at h
  split at h
  · cases h
  · rename_i pass _
    split at h
    · cases h
    · rename_i script hread
      split at h
      · cases h
      · rename_i id table hintern
        refine ⟨script, id, table, hread, hintern, ?_⟩
        cases pass with
        | first =>
          cases h
          exact .inl rfl
        | second =>
          cases h
          exact .inr rfl

/-- What adding any of the seeds keeps, adding all of them keeps. -/
theorem addSeeds_invariant {I : Preprocessor σ → Prop} {seeds : List Seed}
    (hseed : ∀ seed ∈ seeds, ∀ {p p'}, p.addSeed seed = .ok p' → I p → I p') {p p' : Preprocessor σ}
    (hp : I p) (h : p.addSeeds seeds = .ok p') : I p' := by
  induction seeds generalizing p with
  | nil =>
    cases h
    exact hp
  | cons seed seeds ih =>
    obtain ⟨hfirst, hmore⟩ := List.forall_mem_cons.mp hseed
    rw [addSeeds] at h
    split at h
    · cases h
    · rename_i p₁ hadd
      exact ih hmore (hfirst hadd hp) h

/-- The moment at which a call starts. -/
def startMoment (p : Preprocessor σ) (pass : Pass) (tokens : List Token) (table : SpellingTable)
    (source : σ) : Moment σ :=
  ⟨[⟨[], 0, 0, tokens⟩], p.start pass table source⟩

/-- **A call that succeeds is a run** from its start to a moment at which no file is open. -/
theorem runs_of_run {p : Preprocessor σ} {pass : Pass} {tokens out : List Token}
    {table : SpellingTable} {source : σ}
    (h : (p.run pass.number tokens table source).result = .ok out) :
    ∃ story s, Runs p.around pass (p.startMoment pass tokens table source) story out ⟨[], s⟩ ∧
      p.run pass.number tokens table source
        = ⟨.ok out, s.table, s.log, s.env,
            { p with early := s.early, late := s.late, branches := s.branches }, s.source⟩ := by
  simp only [run, ofNumber?_number] at h ⊢
  obtain ⟨story, hruns⟩ := runs_of_process (Prod.ext h rfl) []
  exact ⟨story, _, hruns, by rw [h]⟩

/-- A call that succeeds leaves what any run to the end leaves. -/
theorem run_eq_of_runs {p : Preprocessor σ} {pass : Pass} {tokens out out' : List Token}
    {table : SpellingTable} {source : σ} {story : List Event} {s : PassState σ}
    (h : (p.run pass.number tokens table source).result = .ok out)
    (hruns : Runs p.around pass (p.startMoment pass tokens table source) story out' ⟨[], s⟩) :
    out = out' ∧ p.run pass.number tokens table source
      = ⟨.ok out, s.table, s.log, s.env,
          { p with early := s.early, late := s.late, branches := s.branches }, s.source⟩ := by
  obtain ⟨_, s', hruns', hrun⟩ := runs_of_run h
  obtain ⟨_, rest, -, rfl, hrest⟩ := hruns.split hruns' rfl
  cases hrest with
  | refl => exact ⟨List.append_nil _, hrun⟩
  | move hmove _ => cases hmove

end Preprocessor

end EffectScript
