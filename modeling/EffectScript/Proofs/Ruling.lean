import EffectScript.Proofs.Reading
import EffectScript.Proofs.Simulation

/-!
# What a directive of a conditional decides

Five directives start a branch.  Each of them looks at its operands and at the open conditionals and
comes to a *ruling*: it leaves the conditional to the other pass, or it starts a branch, live or
dead.  Only then does the text behind it matter, and only for a dead branch.

What belongs to a directive depends on the text alone (`Directive.operands`), not on the state: the
macros decide the value of an expression and never where it ends.

Main statement: `exists_ruling`.  A directive with the same operands comes to the same ruling in
front of every text, at every index, and in every state that is *alike*, that is, differs at most in
the places where the conditionals were opened.
-/

namespace EffectScript

variable {σ : Type}

/-! ## 1. The operands of a directive -/

/-- The number of tokens of a text argument. -/
def textLength : List Token → Nat
  | [] => 0
  | t :: rest =>
    if t = .lit TokenId.quote then
      let words := rest.takeWhile (· != .lit TokenId.quote)
      1 + words.length + (if words.length < rest.length then 1 else 0)
    else 1

namespace Directive

/-- The tokens that belong to a directive, of those behind it. -/
def operands (rest : List Token) : Directive → List Token
  | .includeFile => rest.take 1
  | .define _ => rest.take 1 ++ bodyOf rest.tail
  | .undefine => rest.take 1
  | .ifTest _ _ => rest.take (evaluate [] 0 rest).stop
  | .ifVar _ => rest.take 1
  | .elifTest => rest.take (evaluate [] 0 rest).stop
  | .elifVar => rest.take 1
  | .elseBranch => []
  | .endif => []
  | .warning => rest.take (textLength rest)
  | .registerEnv => rest.take (textLength rest)

/-- Whether a directive asks for an expression. -/
def isTest : Directive → Bool
  | .ifTest _ _ => true
  | .elifTest => true
  | _ => false

/-- Whether a directive starts a branch. -/
def branches (d : Directive) : Bool := d.opens || d.divides

/-- Whether a directive may be one of a conditional that is for the other pass. -/
def isLeft : Directive → Bool
  | .ifTest _ late => late
  | .endif => true
  | d => d.divides

end Directive

/-- A text argument is as long as the text says, whatever the spellings. -/
theorem textArgument_snd (s : PassState σ) (tokens : List Token) :
    (textArgument s tokens).2 = textLength tokens := by
  cases tokens with
  | nil => rfl
  | cons t rest =>
    simp only [textArgument, textLength]
    split <;> rfl

/-- What was read as an expression are the operands of the directive before it, and in one scope
they have one value wherever they stand. -/
theorem operands_of_evaluate {scope : Scope} {index : Nat} {rest : List Token} {v : Bool}
    (h : (evaluate scope index rest).value = .ok v) :
    ∃ read more : List Token, rest = read ++ more ∧ rest.take (evaluate [] 0 rest).stop = read ∧
      (∀ t ∈ read, t.id ≠ TokenId.eol) ∧ startsWithSign more = false ∧
      ∃ mask, ∀ (i : Nat) (after : List Token), startsWithSign after = false →
        evaluate scope i (read ++ after) = ⟨.ok v, mask, i + read.length, after⟩ := by
  obtain ⟨read, more, rfl, hwords, hsign, hread⟩ := exists_expression_of_evaluate h
  obtain ⟨v₀, mask₀, heq₀⟩ := hread.rest_eq more hsign [] 0
  obtain ⟨v₁, mask₁, heq₁⟩ := hread scope
  rw [heq₁ index more hsign] at h
  cases h
  refine ⟨read, more, rfl, ?_, hwords, hsign, mask₁, heq₁⟩
  rw [heq₀, Nat.zero_add, List.take_left]

/-! ## 2. States that are alike -/

/-- A branch record without the place at which it was opened. -/
def Branch.unplaced (b : Branch) : Branch := { b with start := 0 }

namespace PassState

/-- The states differ at most in the places at which the open conditionals were opened. -/
def Alike (s s' : PassState σ) : Prop :=
  ∃ branches, s' = { s with branches := branches } ∧
    branches.map Branch.unplaced = s.branches.map Branch.unplaced

theorem Alike.refl (s : PassState σ) : s.Alike s := ⟨s.branches, rfl, rfl⟩

theorem Alike.symm {s s' : PassState σ} (h : s.Alike s') : s'.Alike s := by
  obtain ⟨branches, rfl, hbranches⟩ := h
  exact ⟨s.branches, rfl, hbranches.symm⟩

/-- Other open conditionals in place of those of a state. -/
theorem Alike.of_branches {s : PassState σ} {branches branches' : List Branch}
    (h : branches'.map Branch.unplaced = branches.map Branch.unplaced) :
    { s with branches := branches }.Alike { s with branches := branches' } := ⟨branches', rfl, h⟩

theorem scope_branches (around : Surroundings σ) (pass : Pass) (s : PassState σ)
    (branches : List Branch) :
    { s with branches := branches }.scope around pass = s.scope around pass := by
  cases pass <;> rfl

/-- Asking for a runtime variable changes the report at most, -/
theorem testVariable_snd (around : Surroundings σ) (s : PassState σ) (name : TokenId) :
    ∃ log, (s.testVariable around name).2 = { s with log := log } := by
  unfold testVariable
  dsimp only
  split
  · exact ⟨s.log, rfl⟩
  · exact ⟨_, rfl⟩

/-- and has nothing to do with the open conditionals. -/
theorem testVariable_branches (around : Surroundings σ) (s : PassState σ) (name : TokenId)
    (branches : List Branch) :
    { s with branches := branches }.testVariable around name
      = ((s.testVariable around name).1,
          { (s.testVariable around name).2 with branches := branches }) := by
  unfold testVariable
  dsimp only
  split <;> rfl

/-- No open conditional is left to the other pass. -/
def Settled (s : PassState σ) : Prop := ∀ b ∈ s.branches, b.deferred = false

end PassState

/-- Conditionals that are open in alike states: none in both, or the innermost ones with the same
record up to its place. -/
theorem Branch.unplaced_cons {top : Branch} {outer branches : List Branch}
    (h : branches.map Branch.unplaced = (top :: outer).map Branch.unplaced) :
    ∃ place outer', branches = { top with start := place } :: outer' ∧
      outer'.map Branch.unplaced = outer.map Branch.unplaced := by
  cases branches with
  | nil => cases h
  | cons top' outer' =>
    rw [List.map_cons, List.map_cons, List.cons.injEq] at h
    obtain ⟨htop, houter⟩ := h
    refine ⟨top'.start, outer', ?_, houter⟩
    cases top
    cases top'
    simp only [Branch.unplaced, Branch.mk.injEq] at htop
    simp only [List.cons.injEq, Branch.mk.injEq, and_true]
    exact ⟨htop.1, htop.2.1, htop.2.2.1, htop.2.2.2.1⟩

/-! ## 3. Rulings -/

/-- What a directive of a conditional decides. -/
inductive Ruling (σ : Type) where
  /-- The conditional is for the other pass. -/
  | leave (s : PassState σ)
  /-- A branch starts. -/
  | branch (live : Bool) (s : PassState σ)

namespace Ruling

/-- The step that carries a ruling out, for a directive that is `size` tokens with its operands. -/
def toStep (tokens : List Token) (size : Nat) : Ruling σ → Step σ
  | leave s => .next size (tokens.take size) s
  | branch live s => branchStep tokens size live s

/-- The same ruling, with states that are alike. -/
inductive Alike : Ruling σ → Ruling σ → Prop
  | leave {s s' : PassState σ} (h : s.Alike s') : Alike (.leave s) (.leave s')
  | branch (live : Bool) {s s' : PassState σ} (h : s.Alike s') :
      Alike (.branch live s) (.branch live s')

/-- A ruling in a state changes the open conditionals, and reports at most.  Only the first pass
leaves a conditional to the other one, by opening it. -/
def Follows (pass : Pass) (d : Directive) (s : PassState σ) : Ruling σ → Prop
  | leave s' => d.isLeft ∧ (∃ branches, s' = { s with branches := branches }) ∧
      (s.Settled → pass = .first ∧ d.opens)
  | branch _ s' => (∃ branches log, s' = { s with branches := branches, log := log }) ∧
      (s.Settled → s'.Settled)

end Ruling

section Rulings

variable {around : Surroundings σ} {pass : Pass} {path : List Bytes} {base index : Nat}
  {first : Token} {rest : List Token} {s : PassState σ}

/-- A function for a directive comes to one ruling on the operands, in front of every text. -/
def Ruled (pass : Pass) (d : Directive) (first : Token) (rest : List Token) (s : PassState σ)
    (go : Nat → List Token → PassState σ → Step σ) : Prop :=
  ∃ more, rest = d.operands rest ++ more ∧ (d = .elifVar → rest ≠ []) ∧
    (d.isTest → startsWithSign more = false ∧ ∀ t ∈ d.operands rest, t.id ≠ TokenId.eol) ∧
    ∃ r₀ : Ruling σ, ∀ (i : Nat) (s' : PassState σ), s.Alike s' →
      ∃ r : Ruling σ, r₀.Alike r ∧ r.Follows pass d s' ∧
        ∀ after, (d.isTest → startsWithSign after = false) →
          go i (first :: (d.operands rest ++ after)) s'
            = r.toStep (first :: (d.operands rest ++ after)) ((d.operands rest).length + 1)

theorem ifTestStep_ruled {negated late : Bool}
    (h : ∀ e t, ifTestStep around pass index (first :: rest) negated late s ≠ .fail e t) :
    Ruled pass (.ifTest negated late) first rest s
      fun i tokens s => ifTestStep around pass i tokens negated late s := by
  cases hvalue : (evaluate (s.scope around pass) (index + 1) rest).value with
  | error c =>
    refine absurd ?_ (h (Error.ofCause c) s)
    simp only [ifTestStep, List.tail_cons, hvalue, Step.failWith]
  | ok holds =>
    obtain ⟨read, more, hrest, hread, hwords, hsign, mask, heq⟩ := operands_of_evaluate hvalue
    have hops : (Directive.ifTest negated late).operands rest = read := hread
    refine ⟨more, hops.symm ▸ hrest, (by rintro ⟨⟩), fun _ => ⟨hsign, hops.symm ▸ hwords⟩, ?_⟩
    rw [hops]
    let live := if negated then !holds else holds
    let rule := fun (i : Nat) (s : PassState σ) =>
      if pass = .first && late then Ruling.leave (s.push ⟨true, false, false, mask, i⟩)
      else Ruling.branch live (s.push ⟨false, live, false, mask, i⟩)
    refine ⟨rule index s, ?_⟩
    rintro i s' ⟨branches, rfl, hbranches⟩
    refine ⟨rule i { s with branches := branches }, ?_, ?_, ?_⟩
    · have hpush : ∀ b b' : Branch, b'.unplaced = b.unplaced →
          (s.push b).Alike ({ s with branches := branches }.push b') := by
        intro b b' hb
        exact .of_branches (by rw [List.map_cons, List.map_cons, hb, hbranches])
      simp only [rule]
      split
      · exact .leave (hpush _ _ rfl)
      · exact .branch live (hpush _ _ rfl)
    · simp only [rule]
      split
      · rename_i hlate
        simp only [Bool.and_eq_true, decide_eq_true_eq] at hlate
        exact ⟨hlate.2, ⟨_, rfl⟩, fun _ => ⟨hlate.1, rfl⟩⟩
      · refine ⟨⟨_, _, rfl⟩, fun hsettled => ?_⟩
        exact List.forall_mem_cons.mpr ⟨rfl, hsettled⟩
    · intro after hafter
      have heval := heq (i + 1) after (hafter rfl)
      have hsize : i + 1 + read.length - i = read.length + 1 := by omega
      simp only [ifTestStep, List.tail_cons]
      rw [PassState.scope_branches, heval]
      simp only [hsize, rule]
      split <;> rfl

theorem ifVarStep_ruled {negated : Bool}
    (h : ∀ e t, ifVarStep around index (first :: rest) negated s ≠ .fail e t) :
    Ruled pass (.ifVar negated) first rest s
      fun i tokens s => ifVarStep around i tokens negated s := by
  cases rest with
  | nil => exact absurd rfl (h _ _)
  | cons name more =>
    obtain ⟨log, hlog⟩ := s.testVariable_snd around name.id
    let isSet := (s.testVariable around name.id).1
    let live := if negated then !isSet else isSet
    refine ⟨more, rfl, (by rintro ⟨⟩), (by rintro ⟨⟩),
      .branch live ({ s with log := log }.push ⟨false, live, false, 0, index⟩), ?_⟩
    rintro i s' ⟨branches, rfl, hbranches⟩
    refine ⟨.branch live
      ({ s with branches := branches, log := log }.push ⟨false, live, false, 0, i⟩), ?_, ?_, ?_⟩
    · refine .branch live (.of_branches ?_)
      rw [List.map_cons, List.map_cons, hbranches]
      rfl
    · exact ⟨⟨_, _, rfl⟩, fun hsettled => List.forall_mem_cons.mpr ⟨rfl, hsettled⟩⟩
    · intro after _
      simp only [ifVarStep, Directive.operands, List.take_succ_cons, List.take_zero,
        List.singleton_append, List.tail_cons, PassState.testVariable_branches, hlog]
      rfl

/-- A directive that goes on with a conditional finds one that its file has opened. -/
theorem withBranch_ne_fail {name : String} {go : Branch → Step σ}
    (h : ∀ e t, withBranch base name s go ≠ .fail e t) :
    ∃ top outer, s.branches = top :: outer ∧ base ≤ outer.length ∧
      withBranch base name s go = go top := by
  unfold withBranch at h ⊢
  split
  · rename_i hnone
    rw [hnone] at h
    exact absurd rfl (h _ _)
  · rename_i top outer htop
    by_cases hbase : s.branches.length ≤ base
    · rw [htop] at h hbase
      simp only [hbase, if_true] at h
      exact absurd rfl (h _ _)
    · refine ⟨top, outer, htop, ?_, if_neg hbase⟩
      rw [htop, List.length_cons] at hbase
      omega

/-- In an alike state the innermost conditional is the same but for its place, and the file that has
opened it is the same. -/
theorem withBranch_alike {branches : List Branch} {top : Branch} {outer : List Branch}
    (htop : s.branches = top :: outer) (hbase : base ≤ outer.length)
    (hbranches : branches.map Branch.unplaced = s.branches.map Branch.unplaced) :
    ∃ place outer', branches = { top with start := place } :: outer' ∧
      outer'.map Branch.unplaced = outer.map Branch.unplaced ∧
      ∀ (name : String) (go : Branch → Step σ),
        withBranch base name { s with branches := branches } go
          = go { top with start := place } := by
  rw [htop] at hbranches
  obtain ⟨place, outer', rfl, houter⟩ := Branch.unplaced_cons hbranches
  have hlength : outer'.length = outer.length := by simpa using congrArg List.length houter
  exact ⟨place, outer', rfl, houter, withBranch_cons rfl (hlength ▸ hbase)⟩

/-- The common form of the directives that go on with a conditional: one that is for the other pass
is left alone, nothing may follow a branch that was shut, and otherwise a branch starts. -/
def divideStep (base : Nat) (name : String) (tokens : List Token) (size : Nat)
    (live : Branch → Bool) (log : Branch → List Bytes) (turn : Branch → Branch)
    (s : PassState σ) : Step σ :=
  withBranch base name s fun top =>
    if top.deferred then .next size (tokens.take size) s
    else if top.closed then .failWith .elseAfterElse s
    else branchStep tokens size (live top) ({ s with log := log top }.setTop (turn top))

/-- The changes that such a directive makes have nothing to do with the place of the conditional. -/
structure PlaceBlind (live : Branch → Bool) (log : Branch → List Bytes) (turn : Branch → Branch) :
    Prop where
  live_eq : ∀ b place, live { b with start := place } = live b
  log_eq : ∀ b place, log { b with start := place } = log b
  turn_eq : ∀ b place, turn { b with start := place } = { turn b with start := place }
  deferred_eq : ∀ b, (turn b).deferred = b.deferred

theorem divideStep_ruled (index : Nat) {d : Directive} {name : String} {ops more : List Token}
    {go : Nat → List Token → PassState σ → Step σ}
    {live : Branch → Bool} {log : Branch → List Bytes} {turn : Branch → Branch}
    (hblind : PlaceBlind live log turn) (hd : d.isLeft) (hops : d.operands rest = ops)
    (hrest : rest = ops ++ more) (hvar : d = .elifVar → rest ≠ [])
    (htest : d.isTest → startsWithSign more = false ∧ ∀ t ∈ ops, t.id ≠ TokenId.eol)
    (hgo : ∀ i s' after, s.Alike s' → (d.isTest → startsWithSign after = false) →
      go i (first :: (ops ++ after)) s'
        = divideStep base name (first :: (ops ++ after)) (ops.length + 1) live log turn s')
    (h : ∀ e t, go index (first :: rest) s ≠ .fail e t) : Ruled pass d first rest s go := by
  rw [hrest, hgo index s more (.refl s) fun ht => (htest ht).1] at h
  obtain ⟨top, outer, htop, hbase, hgoes⟩ := withBranch_ne_fail h
  unfold divideStep at h
  rw [hgoes] at h
  refine ⟨more, hops.symm ▸ hrest, hvar, hops.symm ▸ htest, ?_⟩
  rw [hops]
  let rule := fun (b : Branch) (s : PassState σ) =>
    if b.deferred then Ruling.leave s
    else Ruling.branch (live b) ({ s with log := log b }.setTop (turn b))
  refine ⟨rule top s, ?_⟩
  rintro i s' ⟨branches, rfl, hbranches⟩
  obtain ⟨place, outer', rfl, houter, hwith⟩ := withBranch_alike htop hbase hbranches
  refine ⟨rule { top with start := place }
    { s with branches := { top with start := place } :: outer' }, ?_, ?_, ?_⟩
  · simp only [rule]
    rw [hblind.live_eq top place, hblind.log_eq top place, hblind.turn_eq top place]
    split
    · exact .leave (.of_branches hbranches)
    · refine .branch _ (.of_branches ?_)
      simp only [htop, List.tail_cons, List.map_cons, houter]
      rfl
  · simp only [rule]
    split
    · rename_i hdeferred
      refine ⟨hd, ⟨_, rfl⟩, fun hsettled => ?_⟩
      have hfalse : top.deferred = false := hsettled { top with start := place } List.mem_cons_self
      rw [hfalse] at hdeferred
      cases hdeferred
    · refine ⟨⟨_, _, rfl⟩, fun hsettled => ?_⟩
      obtain ⟨hdeferred, hsettled⟩ := List.forall_mem_cons.mp hsettled
      exact List.forall_mem_cons.mpr ⟨(hblind.deferred_eq _).trans hdeferred, hsettled⟩
  · intro after hafter
    rw [hgo i _ after (.of_branches hbranches) hafter, divideStep, hwith]
    simp only [rule]
    split
    · rfl
    · rename_i hdeferred
      split
      · rename_i hclosed
        simp only [hdeferred, hclosed, if_true, if_false, Bool.false_eq_true] at h
        exact absurd rfl (h _ _)
      · rfl

theorem elifTestStep_ruled
    (h : ∀ e t, elifTestStep around pass base index (first :: rest) s ≠ .fail e t) :
    Ruled pass .elifTest first rest s
      fun i tokens s => elifTestStep around pass base i tokens s := by
  obtain ⟨top, outer, htop, hbase, hgoes⟩ := withBranch_ne_fail h
  cases hvalue : (evaluate (s.scope around pass) (index + 1) rest).value with
  | error c =>
    refine absurd ?_ (h (Error.ofCause c) s)
    rw [elifTestStep, hgoes]
    simp only [List.tail_cons, hvalue, Step.failWith]
  | ok holds =>
    obtain ⟨read, more, hrest, hread, hwords, hsign, mask, heq⟩ := operands_of_evaluate hvalue
    have hblind : PlaceBlind (fun b => !b.taken && holds) (fun _ => s.log)
        (fun b => if b.taken then b else { b with mask := mask, taken := holds }) := by
      refine ⟨fun _ _ => rfl, fun _ _ => rfl, fun b place => ?_, fun b => ?_⟩
      · dsimp only
        split <;> rfl
      · split <;> rfl
    refine divideStep_ruled index hblind rfl hread hrest (by rintro ⟨⟩) (fun _ => ⟨hsign, hwords⟩)
      (fun i s' after halike hafter => ?_ :
        ∀ i s' after, s.Alike s' → _ →
          elifTestStep around pass base i (first :: (read ++ after)) s'
            = divideStep base "#elif" (first :: (read ++ after)) (read.length + 1) _ _ _ s') h
    obtain ⟨branches, rfl, hbranches⟩ := halike
    have heval := heq (i + 1) after (hafter rfl)
    have hsize : i + 1 + read.length - i = read.length + 1 := by omega
    obtain ⟨place, outer', rfl, -, hwith⟩ := withBranch_alike htop hbase hbranches
    rw [elifTestStep, hwith, divideStep, hwith]
    simp only [List.tail_cons, PassState.scope_branches, heval, hsize]
    cases htaken : top.taken <;> rfl

theorem elifVarStep_ruled
    (h : ∀ e t, elifVarStep around base (first :: rest) s ≠ .fail e t) :
    Ruled pass .elifVar first rest s fun _ tokens s => elifVarStep around base tokens s := by
  obtain ⟨top, outer, htop, hbase, hgoes⟩ := withBranch_ne_fail h
  cases rest with
  | nil =>
    refine absurd ?_ (h (Error.ofCause .truncated) s)
    rw [elifVarStep, hgoes]
    rfl
  | cons name more =>
    obtain ⟨log, hlog⟩ := s.testVariable_snd around name.id
    let isSet := (s.testVariable around name.id).1
    have hblind : PlaceBlind (fun b => !b.taken && isSet) (fun b => if b.taken then s.log else log)
        (fun b => if b.taken then b else { b with taken := isSet }) := by
      refine ⟨fun _ _ => rfl, fun _ _ => rfl, fun b place => ?_, fun b => ?_⟩
      · dsimp only
        split <;> rfl
      · split <;> rfl
    refine divideStep_ruled 0 hblind rfl rfl rfl (fun _ => List.cons_ne_nil _ _) (by rintro ⟨⟩)
      (fun _ s' after halike _ => ?_ :
        ∀ _ s' after, s.Alike s' → _ →
          elifVarStep around base (first :: ([name] ++ after)) s'
            = divideStep base "#elifcvar" (first :: ([name] ++ after)) 2 _ _ _ s') h
    obtain ⟨branches, rfl, hbranches⟩ := halike
    obtain ⟨place, outer', rfl, -, hwith⟩ := withBranch_alike htop hbase hbranches
    rw [elifVarStep, hwith, divideStep, hwith]
    simp only [List.singleton_append, List.tail_cons, PassState.testVariable_branches, hlog]
    cases htaken : top.taken <;> rfl

theorem elseStep_ruled (h : ∀ e t, elseStep base (first :: rest) s ≠ .fail e t) :
    Ruled pass .elseBranch first rest s fun _ tokens s => elseStep base tokens s := by
  have hblind : PlaceBlind (fun b => !b.taken) (fun _ => s.log)
      (fun b => { b with closed := b.taken, taken := true }) :=
    ⟨fun _ _ => rfl, fun _ _ => rfl, fun _ _ => rfl, fun _ => rfl⟩
  refine divideStep_ruled 0 hblind rfl rfl rfl (by rintro ⟨⟩) (by rintro ⟨⟩)
    (fun _ s' after halike _ => ?_ :
      ∀ _ s' after, s.Alike s' → _ →
        elseStep base (first :: ([] ++ after)) s'
          = divideStep base "#else" (first :: ([] ++ after)) 1 _ _ _ s') h
  obtain ⟨branches, rfl, -⟩ := halike
  rfl

/-- **A directive that starts a branch comes to one ruling** on its operands: the same in front of
every text, at every index and in every alike state. -/
theorem exists_ruling {d : Directive} (hd : d.branches)
    (h : ∀ e t, directiveStep around pass path base index (first :: rest) s d ≠ .fail e t) :
    Ruled pass d first rest s fun i tokens s =>
      directiveStep around pass path base i tokens s d := by
  cases d with
  | ifTest negated late => exact ifTestStep_ruled h
  | ifVar negated => exact ifVarStep_ruled h
  | elifTest => exact elifTestStep_ruled h
  | elifVar => exact elifVarStep_ruled h
  | elseBranch => exact elseStep_ruled h
  | includeFile => cases hd
  | define late => cases hd
  | undefine => cases hd
  | endif => cases hd
  | warning => cases hd
  | registerEnv => cases hd

theorem ruled_of_next {d : Directive} (hd : d.branches) {used : Nat} {emitted : List Token}
    {s' : PassState σ}
    (h : directiveStep around pass path base index (first :: rest) s d = .next used emitted s') :
    Ruled pass d first rest s fun i tokens s =>
      directiveStep around pass path base i tokens s d := by
  have hne : ∀ e t, directiveStep around pass path base index (first :: rest) s d ≠ .fail e t := by
    intro e t
    rw [h]
    rintro ⟨⟩
  exact exists_ruling hd hne

end Rulings

end EffectScript
