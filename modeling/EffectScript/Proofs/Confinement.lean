import Mathlib
import EffectScript.Proofs.Moments
import EffectScript.Proofs.Passage

/-!
# Conditionals stay in the file that opened them

All files of a pass share one stack of open conditionals.  A file begins inside `base` of them, and
no step in it reaches below: a step opens a conditional, changes or closes the innermost one if the
file itself opened it, or leaves the stack alone (`Turns`).  So the outer conditionals come through
a file as they are, and since a file that succeeds leaves none of its own open, the stack behind it
is the stack in front of it.

Main statement: `conditionals_confined`, put together from

* `process_branches`: a file that is gone through without an error leaves the stack as it was;
* `Preprocessor.run_depth`: a call that succeeds leaves no conditional open;
* `process_unmatched`: a directive that would go on with a conditional, where its file has none
  open, makes the pass fail for that reason, whatever the files around it have open.
-/

namespace EffectScript

variable {σ : Type}

/-! ## 1. What a step does to the open conditionals -/

/-- A branch starts in a file that began inside `base` conditionals: of a conditional that is
opened, or of the innermost one, if it is the file's own. -/
inductive Starts (base : Nat) : List Branch → List Branch → Prop
  | opens (b : Branch) (outer : List Branch) : Starts base outer (b :: outer)
  | turns (b b' : Branch) {outer : List Branch} (h : base ≤ outer.length) :
      Starts base (b :: outer) (b' :: outer)

/-- What a step in such a file does to the open conditionals. -/
inductive Turns (base : Nat) : List Branch → List Branch → Prop
  | stays (branches : List Branch) : Turns base branches branches
  | starts {branches branches' : List Branch} (h : Starts base branches branches') :
      Turns base branches branches'
  | closes (b : Branch) {outer : List Branch} (h : base ≤ outer.length) :
      Turns base (b :: outer) outer

/-- A branch that starts is one of the file. -/
theorem Starts.base_lt {base : Nat} {branches branches' : List Branch}
    (h : Starts base branches branches') (hbase : base ≤ branches.length) :
    base < branches'.length := by
  cases h with
  | opens b => exact Nat.lt_succ_of_le hbase
  | turns b b' houter => exact Nat.lt_succ_of_le houter

theorem Branch.outer_cons {base : Nat} (b : Branch) {outer : List Branch}
    (h : base ≤ outer.length) : Branch.outer base (b :: outer) = Branch.outer base outer := by
  unfold Branch.outer
  rw [List.length_cons, Nat.succ_sub h, List.drop_succ_cons]

/-- **The outer conditionals stay as they are.** -/
theorem Turns.outer_eq {base : Nat} {branches branches' : List Branch}
    (h : Turns base branches branches') (hbase : base ≤ branches.length) :
    base ≤ branches'.length ∧ Branch.outer base branches' = Branch.outer base branches := by
  cases h with
  | stays => exact ⟨hbase, rfl⟩
  | starts h =>
    refine ⟨Nat.le_of_lt (h.base_lt hbase), ?_⟩
    cases h with
    | opens b => exact Branch.outer_cons b hbase
    | turns b b' houter => rw [Branch.outer_cons b' houter, Branch.outer_cons b houter]
  | closes b houter => exact ⟨houter, (Branch.outer_cons b houter).symm⟩

section Steps

variable {around : Surroundings σ} {pass : Pass} {path : List Bytes} {base index used : Nat}
  {first : Token} {rest tokens emitted : List Token} {s s' : PassState σ}

/-- A directive that goes on with a conditional goes on with one of the file. -/
theorem withBranch_turns {name : String} {go : Branch → Step σ}
    (h : withBranch base name s go = .next used emitted s')
    (hgo : ∀ top outer, s.branches = top :: outer → go top = .next used emitted s' →
      ∃ b', s'.branches = b' :: outer) :
    ∃ b b' outer, base ≤ outer.length ∧ s.branches = b :: outer ∧ s'.branches = b' :: outer := by
  have hne : ∀ e t, withBranch base name s go ≠ .fail e t := by
    intro e t
    rw [h]
    rintro ⟨⟩
  obtain ⟨top, outer, htop, hbase, hgoes⟩ := withBranch_ne_fail hne
  rw [hgoes] at h
  obtain ⟨b', hb'⟩ := hgo top outer htop h
  exact ⟨top, b', outer, hbase, htop, hb'⟩

/-- A directive that opens a conditional does so inside all that are open. -/
theorem opens_push {d : Directive} (hd : d.opens)
    (h : directiveStep around pass path base index tokens s d = .next used emitted s') :
    ∃ b, s'.branches = b :: s.branches := by
  cases d with
  | ifTest negated late =>
    simp only [directiveStep, ifTestStep, Step.failWith] at h
    split at h
    · cases h
    · split at h
      · cases h
        exact ⟨_, rfl⟩
      · obtain ⟨rfl, -⟩ := branchStep_eq_next h
        exact ⟨_, rfl⟩
  | ifVar negated =>
    simp only [directiveStep, ifVarStep, Step.failWith] at h
    split at h
    · cases h
    · rename_i name after _
      obtain ⟨log, hlog⟩ := s.testVariable_snd around name.id
      obtain ⟨rfl, -⟩ := branchStep_eq_next h
      rw [hlog]
      exact ⟨_, rfl⟩
  | _ => cases hd

/-- A directive that divides a conditional goes on with one of the file. -/
theorem divides_turn {d : Directive} (hd : d.divides)
    (h : directiveStep around pass path base index tokens s d = .next used emitted s') :
    ∃ b b' outer, base ≤ outer.length ∧ s.branches = b :: outer ∧ s'.branches = b' :: outer := by
  cases d with
  | elifTest =>
    refine withBranch_turns h fun top outer htop hgo => ?_
    dsimp only [Step.failWith] at hgo
    repeat' split at hgo
    · cases hgo
    · cases hgo
      exact ⟨top, htop⟩
    · cases hgo
    · obtain ⟨rfl, -⟩ := branchStep_eq_next hgo
      exact ⟨top, htop⟩
    · obtain ⟨rfl, -⟩ := branchStep_eq_next hgo
      exact ⟨_, congrArg (_ :: ·) (congrArg List.tail htop)⟩
  | elifVar =>
    refine withBranch_turns h fun top outer htop hgo => ?_
    dsimp only [Step.failWith] at hgo
    repeat' split at hgo
    · cases hgo
    · cases hgo
      exact ⟨top, htop⟩
    · cases hgo
    · obtain ⟨rfl, -⟩ := branchStep_eq_next hgo
      exact ⟨top, htop⟩
    · rename_i name _ _ _ _ _
      obtain ⟨log, hlog⟩ := s.testVariable_snd around name.id
      obtain ⟨rfl, -⟩ := branchStep_eq_next hgo
      rw [hlog]
      exact ⟨_, congrArg (_ :: ·) (congrArg List.tail htop)⟩
  | elseBranch =>
    refine withBranch_turns h fun top outer htop hgo => ?_
    dsimp only [Step.failWith] at hgo
    repeat' split at hgo
    · cases hgo
      exact ⟨top, htop⟩
    · cases hgo
    · obtain ⟨rfl, -⟩ := branchStep_eq_next hgo
      exact ⟨_, congrArg (_ :: ·) (congrArg List.tail htop)⟩
  | _ => cases hd

/-- A directive that starts a branch does so in its file. -/
theorem branches_start {d : Directive} (hd : d.branches)
    (h : directiveStep around pass path base index tokens s d = .next used emitted s') :
    Starts base s.branches s'.branches := by
  rw [Directive.branches, Bool.or_eq_true] at hd
  rcases hd with hopens | hdivides
  · obtain ⟨b, hb⟩ := opens_push hopens h
    rw [hb]
    exact .opens b s.branches
  · obtain ⟨b, b', outer, hbase, hb, hb'⟩ := divides_turn hdivides h
    rw [hb, hb']
    exact .turns b b' hbase

/-- The end of a conditional closes one of the file. -/
theorem endifStep_pop (h : endifStep base tokens s = .next used emitted s') :
    ∃ b, base ≤ s'.branches.length ∧ s.branches = b :: s'.branches := by
  have hne : ∀ e t, endifStep base tokens s ≠ .fail e t := by
    intro e t
    rw [h]
    rintro ⟨⟩
  obtain ⟨top, outer, htop, hbase, hgoes⟩ := withBranch_ne_fail hne
  rw [endifStep, hgoes] at h
  cases h
  dsimp only
  rw [htop]
  exact ⟨top, hbase, rfl⟩

theorem endifStep_turns (h : endifStep base tokens s = .next used emitted s') :
    Turns base s.branches s'.branches := by
  obtain ⟨b, hbase, hb⟩ := endifStep_pop h
  rw [hb]
  exact .closes b hbase

theorem forget_branches (pass : Pass) (id : TokenId) (s : PassState σ) :
    (s.forget pass id).branches = s.branches := by
  unfold PassState.forget
  split
  · cases pass <;> rfl
  · split <;> rfl

theorem replay_branches (s : PassState σ) (unit : List Token) :
    (replay s unit).branches = s.branches := by
  unfold replay
  repeat' split
  all_goals rfl

theorem hidden_turns {d : Directive} (hd : d.isHidden)
    (h : directiveStep around pass path base index tokens s d = .next used emitted s') :
    Turns base s.branches s'.branches := by
  cases d with
  | ifTest negated late => exact .starts (branches_start rfl h)
  | ifVar negated => exact .starts (branches_start rfl h)
  | elifTest => exact .starts (branches_start rfl h)
  | elifVar => exact .starts (branches_start rfl h)
  | elseBranch => exact .starts (branches_start rfl h)
  | endif => exact endifStep_turns h
  | warning =>
    cases h
    exact .stays _
  | registerEnv =>
    cases h
    exact .stays _
  | includeFile => cases hd
  | define late => cases hd
  | undefine => cases hd

theorem Directive.isHidden_of_isLeft {d : Directive} (h : d.isLeft) : d.isHidden := by
  cases d <;> first | rfl | cases h

/-- **What a step does to the open conditionals.** -/
theorem step_turns (h : step around pass path base index first rest s = .next used emitted s') :
    Turns base s.branches s'.branches := by
  cases step_deed h with
  | word hid => exact .stays _
  | ending => exact .stays _
  | unit hmark =>
    split
    · rw [replay_branches]
      exact .stays _
    · exact .stays _
  | define hid => exact .stays _
  | undefine hid =>
    rw [forget_branches]
    exact .stays _
  | hidden branches log env hid hd =>
    simp only [step, hid] at h
    exact hidden_turns hd h
  | shown branches hid hd =>
    simp only [step, hid] at h
    exact hidden_turns (Directive.isHidden_of_isLeft hd) h

/-- A step into a file leaves them alone. -/
theorem enter_branches {name : Bytes} {file : List Token}
    (h : step around pass path base index first rest s = .enter used emitted name file s') :
    s'.branches = s.branches := by
  obtain ⟨_, _, _, _, -, -, -, -, -, -, -, rfl⟩ := step_eq_enter h
  rfl

end Steps

/-! ## 2. What a file does to them -/

section Files

variable {around : Surroundings σ} {pass : Pass} {path : List Bytes} {name : Bytes}
  {tokens out : List Token} {s s' : PassState σ}

/-- No conditional is open above the outer ones when there are no others. -/
theorem outermostAbove?_eq_none {base : Nat} {branches : List Branch} :
    Branch.outermostAbove? base branches = none ↔ branches.length ≤ base := by
  simp only [Branch.outermostAbove?, List.getLast?_eq_none_iff, ← List.length_eq_zero_iff,
    List.length_take]
  omega

/-- A file comes to its end with the conditionals with which it began. -/
theorem finish_branches {base : Nat} (h : finish name base s = (.ok out, s')) :
    s'.branches = Branch.outer base s.branches := by
  unfold finish at h
  split at h
  · rename_i hnone
    cases h
    have hle := outermostAbove?_eq_none.mp hnone
    rw [Branch.outer, Nat.sub_eq_zero_of_le hle, List.drop_zero]
  · cases h

/-- **The rest of a file** leaves the conditionals that were open where the file began, when the
files that it includes leave all as they are. -/
theorem walk_branches {enter : Bytes → List Token → PassState σ → PassResult σ}
    (henter : ∀ {file : Bytes} {inside inner : List Token} {s s' : PassState σ},
      enter file inside s = (.ok inner, s') → s'.branches = s.branches)
    {base index : Nat}
    (h : walk around pass enter path name base index tokens s = (.ok out, s'))
    (hbase : base ≤ s.branches.length) : s'.branches = Branch.outer base s.branches := by
  induction hn : tokens.length using Nat.strongRecOn generalizing index tokens out s with
  | ind n ih =>
  cases tokens with
  | nil =>
    rw [walk] at h
    exact finish_branches h
  | cons first rest =>
    have hlen : ∀ used, (rest.drop (used - 1)).length < n := by
      intro used
      simp only [List.length_drop, List.length_cons] at hn ⊢
      omega
    rw [walk] at h
    split at h
    · cases h
    · rename_i used emitted s₁ hstep
      obtain ⟨more, hmore, rfl⟩ := PassResult.prepend_eq_ok h
      obtain ⟨hbase₁, houter⟩ := (step_turns hstep).outer_eq hbase
      rw [← houter]
      exact ih _ (hlen used) hmore hbase₁ rfl
    · rename_i used emitted file inside s₁ hstep
      split at h
      · cases h
      · rename_i inner s₂ hinner
        obtain ⟨more, hmore, rfl⟩ := PassResult.prepend_eq_ok h
        have hbranches : s₂.branches = s.branches :=
          (henter hinner).trans (enter_branches hstep)
        rw [← hbranches] at hbase ⊢
        exact ih _ (hlen used) hmore hbase rfl

/-- **A file leaves the open conditionals as they were**, frame by frame, when it and the files
inside it are gone through without an error. -/
theorem process_branches {levels : Nat}
    (h : process around pass levels path name tokens s = (.ok out, s')) :
    s'.branches = s.branches := by
  induction levels generalizing path name tokens out s s' with
  | zero => cases h
  | succ levels ih =>
    rw [process] at h
    rw [walk_branches (fun hinner => ih hinner) h (Nat.le_refl _), Branch.outer, Nat.sub_self,
      List.drop_zero]

/-- **A call that succeeds leaves no conditional open.** -/
theorem Preprocessor.run_depth {p : Preprocessor σ} {pass : Int} {table : SpellingTable}
    {source : σ} (h : (p.run pass tokens table source).result = .ok out) :
    (p.run pass tokens table source).after.depth = 0 := by
  unfold run at h ⊢
  split
  · rename_i hpass
    simp only [hpass] at h
    cases h
  · rename_i number hpass
    simp only [hpass] at h
    exact congrArg List.length (process_branches (Prod.ext h rfl))

end Files

/-! ## 3. Directives that go on with a conditional -/

section Unmatched

variable {around : Surroundings σ} {pass : Pass} {path : List Bytes} {base index : Nat}
  {id : TokenId} {d : Directive} {rest : List Token} {s : PassState σ}

/-- Whether a directive goes on with a conditional that is open. -/
def Directive.continues (d : Directive) : Bool := d.divides || d = .endif

/-- The name of a directive that goes on with a conditional, as errors give it. -/
def Directive.continuedName : Directive → Bytes
  | .elifTest => Bytes.ofString "#elif"
  | .elifVar => Bytes.ofString "#elifcvar"
  | .elseBranch => Bytes.ofString "#else"
  | .endif => Bytes.ofString "#endif"
  | _ => []

theorem withBranch_unmatched (h : s.branches.length ≤ base) (name : String)
    (go : Branch → Step σ) :
    withBranch base name s go = .failWith (.noMatchingIf (Bytes.ofString name)) s := by
  unfold withBranch
  split
  · rfl
  · exact if_pos h

/-- **Where a file has no conditional open, there is none to go on with.** -/
theorem step_unmatched (hid : Directive.ofId? id = some d) (hd : d.continues)
    (h : s.branches.length ≤ base) :
    step around pass path base index (.lit id) rest s
      = .failWith (.noMatchingIf d.continuedName) s := by
  simp only [step, hid]
  cases d with
  | elifTest => exact withBranch_unmatched h _ _
  | elifVar => exact withBranch_unmatched h _ _
  | elseBranch => exact withBranch_unmatched h _ _
  | endif => exact withBranch_unmatched h _ _
  | includeFile => cases hd
  | define late => cases hd
  | undefine => cases hd
  | ifTest negated late => cases hd
  | ifVar negated => cases hd
  | warning => cases hd
  | registerEnv => cases hd

/-- A pass over a file comes to a moment at which `f` is the innermost open file: the file itself,
or one that it includes. -/
inductive Meets (around : Surroundings σ) (pass : Pass) :
    Nat → List Bytes → List Token → PassState σ → OpenFile → PassState σ → Prop
  | here {levels index : Nat} {path : List Bytes} {tokens out rest : List Token}
      {s s₁ : PassState σ}
      (h : Passes around pass (entering around pass levels path) path s.branches.length
        ⟨0, tokens, s⟩ out ⟨index, rest, s₁⟩) :
      Meets around pass (levels + 1) path tokens s ⟨path, s.branches.length, index, rest⟩ s₁
  | inside {levels index used : Nat} {path : List Bytes} {name : Bytes} {first : Token}
      {tokens out rest emitted file : List Token} {s s₁ s₂ s₃ : PassState σ} {f : OpenFile}
      (h : Passes around pass (entering around pass levels path) path s.branches.length
        ⟨0, tokens, s⟩ out ⟨index, first :: rest, s₁⟩)
      (hstep : step around pass path s.branches.length index first rest s₁
        = .enter used emitted name file s₂)
      (hinside : Meets around pass levels (name :: path) file s₂ f s₃) :
      Meets around pass (levels + 1) path tokens s f s₃

/-- **A pass that comes to such a directive fails**, with the cause that there is no conditional to
go on with, however deep inside other files. -/
theorem process_unmatched {levels : Nat} {tokens : List Token} {s₁ : PassState σ} {f : OpenFile}
    (hmeets : Meets around pass levels path tokens s f s₁) (hf : f.tokens = .lit id :: rest)
    (hid : Directive.ofId? id = some d) (hd : d.continues) (hown : s₁.branches.length ≤ f.base)
    (name : Bytes) :
    ∃ e, (process around pass levels path name tokens s).1 = .error e ∧
      e.cause = .noMatchingIf d.continuedName := by
  induction hmeets generalizing name with
  | here hcomes =>
    have hwalk := hcomes.walk_eq name
    dsimp only at hf hown hwalk
    rw [hf, walk, step_unmatched hid hd hown] at hwalk
    exact ⟨_, congrArg Prod.fst hwalk, rfl⟩
  | @inside levels index used path file first tokens out rest emitted inside s s₁ s₂ s₃ f
      hcomes hstep hinside ih =>
    obtain ⟨e, herror, hcause⟩ := ih hf hown file
    have hinner : entering around pass levels path file inside s₂ = (.error e, _) :=
      Prod.ext herror rfl
    have hwalk := hcomes.walk_eq name
    dsimp only at hwalk
    rw [walk, hstep] at hwalk
    dsimp only at hwalk
    rw [hinner] at hwalk
    exact ⟨_, congrArg Prod.fst hwalk, hcause⟩

end Unmatched

/-- **Conditionals are confined to the file that opened them.**  A file that is gone through without
an error leaves the open conditionals as they were, so a call that succeeds leaves none; and a
directive that goes on with a conditional, met where all that are open were opened by the files
around, makes the pass fail because there is none to go on with. -/
theorem conditionals_confined :
    (∀ (around : Surroundings σ) (pass : Pass) (levels : Nat) (path : List Bytes) (name : Bytes)
      (tokens out : List Token) (s s' : PassState σ),
      process around pass levels path name tokens s = (.ok out, s') → s'.branches = s.branches) ∧
    (∀ (p : Preprocessor σ) (pass : Int) (tokens out : List Token) (table : SpellingTable)
      (source : σ), (p.run pass tokens table source).result = .ok out →
        (p.run pass tokens table source).after.depth = 0) ∧
    ∀ (around : Surroundings σ) (pass : Pass) (levels : Nat) (path : List Bytes) (name : Bytes)
      (tokens rest : List Token) (s s₁ : PassState σ) (f : OpenFile) (id : TokenId) (d : Directive),
      Meets around pass levels path tokens s f s₁ → f.tokens = .lit id :: rest →
      Directive.ofId? id = some d → d.continues → s₁.branches.length = f.base →
        ∃ e, (process around pass levels path name tokens s).1 = .error e ∧
          e.cause = .noMatchingIf d.continuedName := by
  refine ⟨fun _ _ _ _ _ _ _ _ _ h => process_branches h,
    fun _ _ _ _ _ _ h => Preprocessor.run_depth h, ?_⟩
  intro around pass levels path name tokens rest s s₁ f id d hmeets hf hid hd hown
  exact process_unmatched hmeets hf hid hd (Nat.le_of_eq hown) name

/-- Two files, included inside a conditional: one with a conditional of its own, and one that would
close that of the file around it. -/
theorem conditionals_confined_included :
    let closed : List Token := [.lit TokenId.ifTest, .lit TokenId.one, .lit TokenId.endif]
    let files : Resolver Unit :=
      ⟨fun name _ => ⟨.ok ⟨if name = [0x31] then closed else [.lit TokenId.endif], .empty⟩, [], ()⟩,
        fun _ => 2⟩
    let p : Preprocessor Unit :=
      { Preprocessor.bare with around := ⟨.empty, fun _ => none, some files⟩ }
    let s := p.start .first .empty ()
    let text := fun name : TokenId => [Token.lit TokenId.ifTest, .lit TokenId.one,
      .lit TokenId.includeFile, .lit name, .lit TokenId.endif]
    (∃ out, (p.run 0 (text TokenId.one) .empty ()).result = .ok out ∧
      (p.run 0 (text TokenId.one) .empty ()).after.depth = 0) ∧
    (∃ out s', process p.around .first 2 [] [] (text TokenId.one) s = (.ok out, s') ∧
      s'.branches = s.branches) ∧
    ∃ s₁,
      Meets p.around .first 2 [] (text TokenId.zero) s ⟨[[0x30]], 1, 0, [.lit TokenId.endif]⟩ s₁ ∧
      s₁.branches.length = 1 ∧
      ∃ e, (process p.around .first 2 [] [] (text TokenId.zero) s).1 = .error e ∧
        e.cause = .noMatchingIf (Bytes.ofString "#endif") := by
  intro closed files p s text
  obtain ⟨hprocess, hrun, hunmatched⟩ := conditionals_confined (σ := Unit)
  obtain ⟨out, hout⟩ : ∃ out, (p.run 0 (text TokenId.one) .empty ()).result = .ok out :=
    ⟨_, by cbv⟩
  obtain ⟨out', s', hok⟩ : ∃ out s', process p.around .first 2 [] [] (text TokenId.one) s
      = (.ok out, s') := ⟨_, _, by cbv⟩
  have hopen : step p.around .first [] 0 0 (.lit TokenId.ifTest) (text TokenId.zero).tail s
      = .next 2 (hide [.lit TokenId.ifTest, .lit TokenId.one])
          { s with branches := [⟨false, true, false, 0, 0⟩] } := by cbv
  have henter : step p.around .first [] 0 2 (.lit TokenId.includeFile)
      [.lit TokenId.zero, .lit TokenId.endif] { s with branches := [⟨false, true, false, 0, 0⟩] }
        = .enter 2 (hide [.lit TokenId.includeFile, .lit TokenId.zero]) [0x30]
            [.lit TokenId.endif] { s with branches := [⟨false, true, false, 0, 0⟩] } := by cbv
  have hmeets : Meets p.around .first 2 [] (text TokenId.zero) s
      ⟨[[0x30]], 1, 0, [.lit TokenId.endif]⟩ { s with branches := [⟨false, true, false, 0, 0⟩] } :=
    .inside (.next hopen (.refl _)) henter (.here (.refl _))
  exact ⟨⟨out, hout, hrun p 0 _ out .empty () hout⟩,
    ⟨out', s', hok, hprocess _ _ _ _ _ _ _ _ _ hok⟩,
    _, hmeets, rfl, hunmatched _ _ _ _ [] _ [] _ _ _ TokenId.endif .endif hmeets rfl rfl rfl rfl⟩

end EffectScript
