import EffectScript.Proofs.Deeds

/-!
# Chains of branches

A conditional with its further branches is a *chain* of parts: the head, then branches on tests and
branches for all other cases, in any order and number.  A branch for all other cases need not come
last, and there may be several.  Here every part holds ordinary words, which a pass replaces or lets
stand.

Whether a part is true is settled where the head stands (`Part.isTrue`), because words change no
macro; a branch for all other cases is always true.  Of the chain a pass leaves what `leavings`
says: a part is shown when it is true and no part before it was, and every other part is hidden as a
whole.

The argument follows the record of the open conditional, of which two marks matter: whether a part
was taken, and whether the chain is shut.  `step_arm` says what one further part does to them, and
`leads_arms` and `fails_arms` what all of them do, by induction over the parts.  The chain is shut
by a branch for all other cases that comes when a part was taken already, and then only the end may
follow (`Strays`).

Main statement: `walk_chain`.
-/

namespace EffectScript

variable {σ : Type}

/-! ## 1. Chains and their texts -/

/-- How a part of a chain starts. -/
inductive Opening where
  | head (head : Head)
  | elif (test : Test)
  | otherwise

/-- The id of the directive of a part. -/
def Opening.id : Opening → TokenId
  | head h => h.id
  | elif test => test.id
  | otherwise => TokenId.elseBranch

/-- The operands of the directive of a part. -/
def Opening.operands : Opening → List Token
  | head h => h.test.render
  | elif test => test.render
  | otherwise => []

/-- How the directive of a part is written. -/
def Opening.render (o : Opening) : List Token := .lit o.id :: o.operands

/-- A part of a chain: a directive, and the words behind it. -/
structure Part where
  opening : Opening
  block : List Ordinary

/-- How a part is written. -/
def Part.render (p : Part) : List Token := p.opening.render ++ renderOrdinary p.block

/-- A further part of a chain; one without a test is for all other cases. -/
structure Arm where
  test : Option Test
  block : List Ordinary

/-- A further part as a part. -/
def Arm.part (a : Arm) : Part :=
  ⟨match a.test with
    | some test => .elif test
    | none => .otherwise, a.block⟩

/-- How further parts are written. -/
def renderArms (arms : List Arm) : List Token := arms.flatMap (·.part.render)

/-- A conditional as a chain. -/
structure Chain where
  head : Head
  block : List Ordinary
  arms : List Arm

/-- The first part of a chain. -/
def Chain.first (c : Chain) : Part := ⟨.head c.head, c.block⟩

/-- The parts of a chain. -/
def Chain.parts (c : Chain) : List Part := c.first :: c.arms.map Arm.part

/-- How a chain is written. -/
def Chain.render (c : Chain) : List Token :=
  c.first.render ++ (renderArms c.arms ++ [.lit TokenId.endif])

/-- The directive of a part can be read back in front of a text: an expression is within the bounds,
and no sign carries it on. -/
def Opening.Readable (rest : List Token) : Opening → Prop
  | head (.expression _ _ c) => c.Fits ∧ startsWithSign rest = false
  | elif (.expression c) => c.Fits ∧ startsWithSign rest = false
  | _ => True

/-- The directive of a part can be read back in front of the words of the part. -/
def Part.Readable (p : Part) : Prop := p.opening.Readable (renderOrdinary p.block)

/-- Every directive of a chain can be read back. -/
def Chain.Readable (c : Chain) : Prop := ∀ p ∈ c.parts, p.Readable

/-! ## 2. What a pass should leave of a chain -/

/-- Whether a test is true in a state. -/
def Test.isTrue (around : Surroundings σ) (pass : Pass) (s : PassState σ) : Test → Bool
  | expression c => c.holds (s.scope around pass).defines
  | runtime name => (s.testVariable around name).1

/-- Whether a part is true in a state. -/
def Part.isTrue (around : Surroundings σ) (pass : Pass) (s : PassState σ) (p : Part) : Bool :=
  match p.opening with
  | .head h => xor h.negates (h.test.isTrue around pass s)
  | .elif test => test.isTrue around pass s
  | .otherwise => true

/-- Whether a part is for all other cases. -/
def Part.isElse (p : Part) : Bool :=
  match p.opening with
  | .otherwise => true
  | _ => false

/-- What a pass puts for words. -/
def PassState.expansions (pass : Pass) (s : PassState σ) (words : List Ordinary) : List Token :=
  words.flatMap fun w => s.expansion pass w.id

/-- What is left of a part that is taken: its directive is hidden, and its words are replaced or
stand. -/
def Part.shown (pass : Pass) (s : PassState σ) (p : Part) : List Token :=
  hide p.opening.render ++ s.expansions pass p.block

/-- What is left of parts, when one before them was taken or not: a part is shown when it is true
and none was taken before it, and otherwise hidden. -/
def leavings (around : Surroundings σ) (pass : Pass) (s : PassState σ) :
    (taken : Bool) → List Part → List Token
  | _, [] => []
  | taken, p :: parts =>
    (if !taken && p.isTrue around pass s then p.shown pass s else hide p.render) ++
      leavings around pass s (taken || p.isTrue around pass s) parts

/-- Something follows a part for all other cases that comes behind a true one. -/
def Strays (isTrue : Part → Bool) (parts : List Part) : Prop :=
  ∃ before part after, parts = before ++ part :: after ∧ part.isElse ∧ (∃ p ∈ before, isTrue p) ∧
    after ≠ []

/-- The same, read from the front: `taken` says whether a part was true before these, and `shut`
whether one for all other cases came after that. -/
def straysFrom (isTrue : Part → Bool) : (taken shut : Bool) → List Part → Bool
  | _, _, [] => false
  | taken, shut, p :: parts =>
    shut || straysFrom isTrue (taken || isTrue p) (p.isElse && taken) parts

theorem straysFrom_shut (isTrue : Part → Bool) (taken : Bool) (parts : List Part) :
    straysFrom isTrue taken true parts = true ↔ parts ≠ [] := by
  cases parts <;> simp [straysFrom]

theorem straysFrom_iff (isTrue : Part → Bool) (taken : Bool) (parts : List Part) :
    straysFrom isTrue taken false parts = true ↔
      ∃ before part after, parts = before ++ part :: after ∧ part.isElse ∧
        (taken = true ∨ ∃ p ∈ before, isTrue p) ∧ after ≠ [] := by
  induction parts generalizing taken with
  | nil => simp [straysFrom]
  | cons p parts ih =>
    rw [straysFrom, Bool.false_or]
    -- Either the first part shuts the chain, or what strays does so further on.
    cases hshut : p.isElse && taken with
    | true =>
      rw [straysFrom_shut]
      simp only [Bool.and_eq_true] at hshut
      obtain ⟨helse, htaken⟩ := hshut
      constructor
      · intro hne
        exact ⟨[], p, parts, rfl, helse, .inl htaken, hne⟩
      · rintro ⟨before, part, after, hparts, -, -, hafter⟩ rfl
        cases before with
        | nil =>
          cases hparts
          exact hafter rfl
        | cons q before =>
          injection hparts with _ hparts
          exact absurd hparts.symm (by simp)
    | false =>
      rw [ih]
      constructor
      · rintro ⟨before, part, after, rfl, helse, htrue, hafter⟩
        refine ⟨p :: before, part, after, rfl, helse, ?_, hafter⟩
        rcases htrue with htrue | ⟨q, hq, hqtrue⟩
        · rcases Bool.or_eq_true_iff.mp htrue with htaken | hp
          · exact .inl htaken
          · exact .inr ⟨p, List.mem_cons_self, hp⟩
        · exact .inr ⟨q, List.mem_cons_of_mem _ hq, hqtrue⟩
      · rintro ⟨before, part, after, hparts, helse, htrue, hafter⟩
        cases before with
        | nil =>
          injection hparts with hp _
          rcases htrue with htaken | ⟨q, hq, -⟩
          · rw [hp, helse, htaken] at hshut
            cases hshut
          · cases hq
        | cons q before =>
          injection hparts with hp hparts
          subst hp
          refine ⟨before, part, after, hparts, helse, ?_, hafter⟩
          rcases htrue with htaken | ⟨r, hr, hrtrue⟩
          · exact .inl (by rw [htaken, Bool.true_or])
          · rcases List.mem_cons.mp hr with rfl | hr
            · exact .inl (by rw [hrtrue, Bool.or_true])
            · exact .inr ⟨r, hr, hrtrue⟩

theorem strays_iff (isTrue : Part → Bool) (parts : List Part) :
    Strays isTrue parts ↔ straysFrom isTrue false false parts = true := by
  rw [straysFrom_iff]
  simp [Strays]

/-- The words that should be visible: those of the first true part. -/
def liveBlock (isTrue : Part → Bool) (parts : List Part) : List Ordinary :=
  (parts.find? isTrue).elim [] Part.block

/-! ## 3. Where the words of a part end -/

theorem renderArms_cons (a : Arm) (arms : List Arm) (k : List Token) :
    renderArms (a :: arms) ++ k = a.part.render ++ (renderArms arms ++ k) := by
  rw [renderArms, List.flatMap_cons, List.append_assoc]
  rfl

theorem length_renderArms_cons (a : Arm) (arms : List Arm) :
    (renderArms (a :: arms)).length = a.part.render.length + (renderArms arms).length := by
  rw [renderArms, List.flatMap_cons, List.length_append]
  rfl

theorem deadLength?_renderArms (arms : List Arm) (k : List Token) :
    deadLength? 0 (renderArms arms ++ .lit TokenId.endif :: k) = some 0 := by
  cases arms with
  | nil => exact (deadLength?.eq_def ..).trans rfl
  | cons a arms =>
    obtain ⟨test, block⟩ := a
    rcases test with _ | test
    · exact (deadLength?.eq_def ..).trans rfl
    · cases test <;> exact (deadLength?.eq_def ..).trans rfl

/-- What follows the words of a part carries no expression on. -/
theorem Part.Readable.behind {p : Part} (h : p.Readable) (arms : List Arm) (k : List Token) :
    p.opening.Readable
      (renderOrdinary p.block ++ (renderArms arms ++ .lit TokenId.endif :: k)) := by
  have hsign : startsWithSign (renderOrdinary p.block) = false →
      startsWithSign (renderOrdinary p.block ++ (renderArms arms ++ .lit TokenId.endif :: k))
        = false := by
    intro hblock
    refine startsWithSign_append hblock ?_
    cases arms with
    | nil => rfl
    | cons a arms =>
      obtain ⟨test, block⟩ := a
      rcases test with _ | test
      · rfl
      · cases test <;> rfl
  obtain ⟨opening, block⟩ := p
  rcases opening with head | test | _
  · cases head with
    | expression form late c => exact ⟨h.1, hsign h.2⟩
    | runtime negated name => trivial
  · cases test with
    | expression c => exact ⟨h.1, hsign h.2⟩
    | runtime name => trivial
  · trivial

/-! ## 4. The steps of a chain -/

/-- The record of an open conditional that the pass decides. -/
structure Branch.Stands (b : Branch) (taken shut : Bool) : Prop where
  deferred : b.deferred = false
  taken_eq : b.taken = taken
  closed_eq : b.closed = shut

section Steps

variable {around : Surroundings σ} {pass : Pass} (path : List Bytes) {base index : Nat}
  {s : PassState σ} {taken : Bool} {rest : List Token}

/-- A head opens a conditional, live when its part is true. -/
theorem step_first (base : Nat) (s : PassState σ) (index : Nat) {head : Head}
    (hdecided : head.isDeferred pass = false)
    (hreadable : (Opening.head head).Readable rest) (block : List Ordinary) :
    ∃ log top, Branch.Stands top (Part.isTrue around pass s ⟨.head head, block⟩) false ∧
      step around pass path base index (.lit head.id) (head.test.render ++ rest) s
        = branchStep (head.render ++ rest) (head.test.render.length + 1)
            (Part.isTrue around pass s ⟨.head head, block⟩)
            { s with log := log, branches := top :: s.branches } := by
  cases head with
  | expression form late c =>
    obtain ⟨hfits, hsign⟩ := hreadable
    have hverdict := evaluate_render (s.scope around pass) hfits (index + 1) hsign
    have hused : index + 1 + c.render.length - index = c.render.length + 1 := by omega
    have hearly : (decide (pass = .first) && late) = false := hdecided
    refine ⟨s.log, ⟨false, _, false, (s.scope around pass).maskOfAll c.operands, index⟩,
      ⟨rfl, rfl, rfl⟩, ?_⟩
    rw [Head.id, Head.test, Test.render, step_directive (form.directive late)]
    simp only [directiveStep, ifTestStep, List.tail_cons, hverdict, hused, hearly, xor_eq_ite,
      Bool.false_eq_true, if_false]
    rfl
  | runtime negated name =>
    obtain ⟨log, hlog⟩ := s.testVariable_snd around name
    have hdirective : Directive.ofId? (Head.runtime negated name).id = some (.ifVar negated) := by
      cases negated <;> rfl
    refine ⟨log, ⟨false, _, false, 0, index⟩, ⟨rfl, rfl, rfl⟩, ?_⟩
    rw [step_directive hdirective, directiveStep, ifVarStep]
    simp only [Head.test, Test.render, List.singleton_append, List.tail_cons, Token.id, hlog,
      xor_eq_ite]
    rfl

/-- **A further part of a chain that is not shut** starts a branch, live when it is true and none
was taken before it.  It shuts the chain when it is for all other cases and one was. -/
theorem step_arm {top : Branch} (htop : top.Stands taken false) (hbase : base ≤ s.branches.length)
    {a : Arm} (hreadable : a.part.opening.Readable rest) (log : List Bytes) :
    ∃ log' top',
      Branch.Stands top' (taken || a.part.isTrue around pass s) (a.part.isElse && taken) ∧
      step around pass path base index (.lit a.part.opening.id) (a.part.opening.operands ++ rest)
          { s with log := log, branches := top :: s.branches }
        = branchStep (a.part.opening.render ++ rest) (a.part.opening.operands.length + 1)
            (!taken && a.part.isTrue around pass s)
            { s with log := log', branches := top' :: s.branches } := by
  obtain ⟨test, block⟩ := a
  obtain ⟨hdeferred, htaken, hclosed⟩ := htop
  rcases test with _ | test
  · refine ⟨log, { top with closed := taken, taken := true }, ⟨hdeferred, ?_, rfl⟩, ?_⟩
    · exact (Bool.or_true taken).symm
    · simp only [Arm.part, Opening.id, Opening.operands, List.nil_append]
      rw [step_directive rfl, directiveStep, elseStep, withBranch_cons rfl hbase]
      simp only [hdeferred, hclosed, htaken, Bool.false_eq_true, if_false, Part.isTrue,
        Bool.and_true]
      rfl
  · cases test with
    | expression c =>
      obtain ⟨hfits, hsign⟩ := hreadable
      have hverdict := evaluate_render (s.scope around pass) hfits (index + 1) hsign
      have hused : index + 1 + c.render.length - index = c.render.length + 1 := by omega
      let holds := c.holds (s.scope around pass).defines
      let mask := (s.scope around pass).maskOfAll c.operands
      refine ⟨log, if taken then top else { top with mask := mask, taken := holds }, ?_, ?_⟩
      · cases taken
        · exact ⟨hdeferred, rfl, hclosed⟩
        · exact ⟨hdeferred, htaken, hclosed⟩
      · simp only [Arm.part, Opening.id, Opening.operands, Test.id, Test.render]
        rw [step_directive rfl, directiveStep, elifTestStep, withBranch_cons rfl hbase]
        have hscope : { s with log := log, branches := top :: s.branches }.scope around pass
            = s.scope around pass := by cases pass <;> rfl
        simp only [List.tail_cons, hscope, hverdict, hused, hdeferred, hclosed, htaken,
          Bool.false_eq_true, if_false]
        cases taken <;> rfl
    | runtime name =>
      obtain ⟨log', hlog⟩ := PassState.testVariable_snd around { s with log := log } name
      have htest := PassState.testVariable_branches around { s with log := log } name
        (top :: s.branches)
      have hsame : (PassState.testVariable around { s with log := log } name).1
          = (s.testVariable around name).1 := by
        unfold PassState.testVariable
        dsimp only
        split <;> rfl
      let isSet := (s.testVariable around name).1
      refine ⟨if taken then log else log', if taken then top else { top with taken := isSet },
        ?_, ?_⟩
      · cases taken
        · exact ⟨hdeferred, rfl, hclosed⟩
        · exact ⟨hdeferred, htaken, hclosed⟩
      · simp only [Arm.part, Opening.id, Opening.operands, Test.id, Test.render]
        rw [step_directive rfl, directiveStep, elifVarStep, withBranch_cons rfl hbase]
        simp only [List.singleton_append, List.tail_cons, Token.id, htest, hlog, hsame, hdeferred,
          hclosed, htaken, Bool.false_eq_true, if_false]
        cases taken <;> rfl

/-- Nothing but the end may follow when a chain is shut. -/
theorem step_arm_shut {top : Branch} (htop : top.Stands taken true)
    (hbase : base ≤ s.branches.length) {a : Arm} (hreadable : a.part.opening.Readable rest)
    (log : List Bytes) :
    step around pass path base index (.lit a.part.opening.id) (a.part.opening.operands ++ rest)
        { s with log := log, branches := top :: s.branches }
      = .failWith .elseAfterElse { s with log := log, branches := top :: s.branches } := by
  obtain ⟨test, block⟩ := a
  obtain ⟨hdeferred, -, hclosed⟩ := htop
  rcases test with _ | test
  · simp only [Arm.part, Opening.id, Opening.operands]
    rw [step_directive rfl, directiveStep, elseStep, withBranch_cons rfl hbase]
    simp only [hdeferred, hclosed, Bool.false_eq_true, if_false, if_true]
  · cases test with
    | expression c =>
      obtain ⟨hfits, hsign⟩ := hreadable
      simp only [Arm.part, Opening.id, Opening.operands, Test.id, Test.render]
      rw [step_directive rfl, directiveStep, elifTestStep, withBranch_cons rfl hbase]
      simp only [List.tail_cons, evaluate_render _ hfits _ hsign, hdeferred, hclosed,
        Bool.false_eq_true, if_false, if_true]
    | runtime name =>
      simp only [Arm.part, Opening.id, Opening.operands, Test.id, Test.render]
      rw [step_directive rfl, directiveStep, elifVarStep, withBranch_cons rfl hbase]
      simp only [List.singleton_append, List.tail_cons, hdeferred, hclosed, Bool.false_eq_true,
        if_false, if_true]

/-! ## 5. The run through a chain -/

/-- A run over words. -/
theorem leads_words (words : List Ordinary) (index : Nat) (s : PassState σ) (k : List Token) :
    Leads around pass path base ⟨index, renderOrdinary words ++ k, s⟩ (s.expansions pass words)
      ⟨index + words.length, k, s⟩ := by
  induction words generalizing index with
  | nil => exact .refl _
  | cons w words ih =>
    have hstep : step around pass path base index w.token (renderOrdinary words ++ k) s
        = .next 1 (s.expansion pass w.id) s := by
      rw [← plainStep_eq]
      simp [step, Ordinary.token, w.not_directive, w.ne_eol]
    have hrest := ih (index + 1)
    rw [Nat.add_assoc, Nat.add_comm 1] at hrest
    exact .next hstep hrest

/-- A run over a part whose directive starts a branch, up to what ends the branch. -/
theorem leads_part (p : Part) {s t : PassState σ} {live : Bool} {k : List Token}
    (hend : deadLength? 0 k = some 0)
    (hstep : step around pass path base index (.lit p.opening.id)
        (p.opening.operands ++ (renderOrdinary p.block ++ k)) s
      = branchStep (p.opening.render ++ (renderOrdinary p.block ++ k))
          (p.opening.operands.length + 1) live t) :
    Leads around pass path base ⟨index, p.render ++ k, s⟩
      (if live then p.shown pass t else hide p.render) ⟨index + p.render.length, k, t⟩ := by
  have hlength : p.render.length = p.opening.operands.length + 1 + p.block.length := by
    simp only [Part.render, Opening.render, renderOrdinary, List.length_append, List.length_cons,
      List.length_map]
  have hdrop : (p.opening.render ++ (renderOrdinary p.block ++ k)).drop
      (p.opening.operands.length + 1) = renderOrdinary p.block ++ k := List.drop_left' rfl
  cases live with
  | true =>
    have htake : (p.opening.render ++ (renderOrdinary p.block ++ k)).take
        (p.opening.operands.length + 1) = p.opening.render := List.take_left' rfl
    rw [branchStep, if_pos rfl, htake] at hstep
    have hrun := (Leads.one hstep List.drop_left).trans
      (leads_words path p.block (index + (p.opening.operands.length + 1)) t k)
    rw [Nat.add_assoc, ← hlength] at hrun
    rw [Part.render, List.append_assoc]
    exact hrun
  | false =>
    have hdead : deadLength? 0 (renderOrdinary p.block ++ k) = some p.block.length := by
      rw [deadLength?_of_quiet (quiet_renderOrdinary p.block), hend, renderOrdinary,
        List.length_map, Option.map_some, Nat.zero_add]
    have htake : (p.opening.render ++ (renderOrdinary p.block ++ k)).take p.render.length
        = p.render := by
      rw [← List.append_assoc]
      exact List.take_left' rfl
    simp only [branchStep, hdrop, hdead, ← hlength, htake, Bool.false_eq_true, if_false] at hstep
    have hafter : (p.opening.operands ++ (renderOrdinary p.block ++ k)).drop (p.render.length - 1)
        = k := by
      rw [hlength, ← List.append_assoc]
      refine List.drop_left' ?_
      rw [List.length_append, renderOrdinary, List.length_map]
      omega
    have hrun := Leads.one hstep hafter
    rw [← List.cons_append, ← List.append_assoc] at hrun
    exact hrun

theorem Part.shown_log (p : Part) (s : PassState σ) (log : List Bytes) (branches : List Branch) :
    p.shown pass { s with log := log, branches := branches } = p.shown pass s := by
  cases pass <;> rfl

/-- **The further parts of a chain that does not stray** are gone through to the end. -/
theorem leads_arms {arms : List Arm} {top : Branch} {shut : Bool} (htop : top.Stands taken shut)
    (hbase : base ≤ s.branches.length) (hreadable : ∀ a ∈ arms, a.part.Readable)
    (hstays : straysFrom (·.isTrue around pass s) taken shut (arms.map Arm.part) = false)
    (index : Nat) (log : List Bytes) (k : List Token) :
    ∃ log' top', top'.deferred = false ∧
      Leads around pass path base
        ⟨index, renderArms arms ++ .lit TokenId.endif :: k,
          { s with log := log, branches := top :: s.branches }⟩
        (leavings around pass s taken (arms.map Arm.part))
        ⟨index + (renderArms arms).length, .lit TokenId.endif :: k,
          { s with log := log', branches := top' :: s.branches }⟩ := by
  induction arms generalizing index log top taken shut with
  | nil => exact ⟨log, top, htop.deferred, .refl _⟩
  | cons a arms ih =>
    obtain ⟨ha, harms⟩ := List.forall_mem_cons.mp hreadable
    rw [List.map_cons, straysFrom, Bool.or_eq_false_iff] at hstays
    obtain ⟨rfl, hstays⟩ := hstays
    obtain ⟨log₁, top₁, htop₁, hstep⟩ := step_arm path htop hbase (ha.behind arms k) log
    obtain ⟨log₂, top₂, htop₂, hrest⟩ :=
      ih htop₁ harms hstays (index + a.part.render.length) log₁
    have hpart := leads_part path a.part (deadLength?_renderArms arms k) hstep
    rw [Part.shown_log] at hpart
    refine ⟨log₂, top₂, htop₂, ?_⟩
    rw [renderArms_cons, length_renderArms_cons, ← Nat.add_assoc]
    exact hpart.trans hrest

/-- **The further parts of a chain that strays** are gone through up to the one that may not be
there. -/
theorem fails_arms {arms : List Arm} {top : Branch} {shut : Bool} (htop : top.Stands taken shut)
    (hbase : base ≤ s.branches.length) (hreadable : ∀ a ∈ arms, a.part.Readable)
    (hstrays : straysFrom (·.isTrue around pass s) taken shut (arms.map Arm.part) = true)
    (index : Nat) (log : List Bytes) (k : List Token) :
    ∃ out place first rest t, index ≤ place ∧ place < index + (renderArms arms).length ∧
      Leads around pass path base
        ⟨index, renderArms arms ++ .lit TokenId.endif :: k,
          { s with log := log, branches := top :: s.branches }⟩ out ⟨place, first :: rest, t⟩ ∧
      step around pass path base place first rest t = .failWith .elseAfterElse t := by
  induction arms generalizing index log top taken shut with
  | nil => cases hstrays
  | cons a arms ih =>
    obtain ⟨ha, harms⟩ := List.forall_mem_cons.mp hreadable
    have hpos : 0 < a.part.render.length := by simp [Part.render, Opening.render]
    rw [renderArms_cons, length_renderArms_cons]
    rw [List.map_cons, straysFrom] at hstrays
    cases shut with
    | true =>
      refine ⟨[], index, _, _, _, Nat.le_refl _, by omega, ?_,
        step_arm_shut path htop hbase (ha.behind arms k) log⟩
      rw [Part.render, List.append_assoc]
      exact .refl _
    | false =>
      obtain ⟨log₁, top₁, htop₁, hstep⟩ := step_arm path htop hbase (ha.behind arms k) log
      have hpart := leads_part path a.part (deadLength?_renderArms arms k) hstep
      obtain ⟨out, place, first, rest, t, hle, hlt, hrun, hfail⟩ :=
        ih htop₁ harms hstrays (index + a.part.render.length) log₁
      exact ⟨_, place, first, rest, t, by omega, by omega, hpart.trans hrun, hfail⟩

end Steps

/-! ## 6. What is visible -/

section Visible

variable {around : Surroundings σ} {pass : Pass} {s : PassState σ}

theorem Opening.wellMarked (o : Opening) : WellMarked o.render := by
  rcases o with head | test | _
  · exact head.wellMarked
  · exact test.wellMarked_renderElif
  · exact .lit _ .nil

theorem Part.wellMarked (p : Part) : WellMarked p.render :=
  p.opening.wellMarked.append (wellMarked_renderOrdinary p.block)

/-- Of hidden parts nothing is visible. -/
theorem visible_leavings_taken (parts : List Part) (k : List Token) :
    visible (leavings around pass s true parts ++ k) = visible k := by
  induction parts with
  | nil => rfl
  | cons p parts ih =>
    simp only [leavings, Bool.not_true, Bool.false_and, Bool.false_eq_true, if_false, Bool.true_or,
      List.append_assoc]
    rw [visible_hide_append p.wellMarked, ih]

theorem PassState.wellMarked_expansions {words : List Ordinary}
    (h : ∀ w ∈ words, WellMarked (s.expansion pass w.id)) :
    WellMarked (s.expansions pass words) := by
  induction words with
  | nil => exact .nil
  | cons w words ih =>
    obtain ⟨hw, hwords⟩ := List.forall_mem_cons.mp h
    exact hw.append (ih hwords)

/-- **Of a chain the words of the first true part are visible**, and nothing else. -/
theorem visible_leavings {parts : List Part}
    (hmarked : ∀ w ∈ liveBlock (·.isTrue around pass s) parts, WellMarked (s.expansion pass w.id))
    (k : List Token) :
    visible (leavings around pass s false parts ++ k)
      = visible (s.expansions pass (liveBlock (·.isTrue around pass s) parts)) ++ visible k := by
  induction parts with
  | nil =>
    have hnil : visible [] = [] := by rw [visible]
    simp [leavings, liveBlock, PassState.expansions, hnil]
  | cons p parts ih =>
    cases htrue : p.isTrue around pass s with
    | true =>
      have hlive : liveBlock (·.isTrue around pass s) (p :: parts) = p.block := by
        rw [liveBlock, List.find?_cons_of_pos htrue]
        rfl
      rw [hlive] at hmarked ⊢
      simp only [leavings, htrue, Bool.not_false, Bool.and_true, if_true, Part.shown,
        List.append_assoc, Bool.false_or]
      rw [visible_hide_append p.opening.wellMarked,
        (PassState.wellMarked_expansions hmarked).visible_append, visible_leavings_taken]
    | false =>
      have hlive : liveBlock (·.isTrue around pass s) (p :: parts)
          = liveBlock (·.isTrue around pass s) parts := by
        rw [liveBlock, List.find?_cons_of_neg (by rw [htrue]; decide)]
        rfl
      rw [hlive] at hmarked ⊢
      simp only [leavings, htrue, Bool.and_false, Bool.false_eq_true, if_false, List.append_assoc,
        Bool.false_or]
      rw [visible_hide_append p.wellMarked, ih hmarked]

end Visible

/-! ## 7. The whole chain -/

section Chain

variable {around : Surroundings σ} {pass : Pass} (path : List Bytes) {base : Nat}
  {s : PassState σ} {c : Chain}

/-- The end of a chain closes its conditional. -/
theorem step_endif (around : Surroundings σ) (pass : Pass) {top : Branch}
    (hdeferred : top.deferred = false) (hbase : base ≤ s.branches.length) (log : List Bytes)
    (index : Nat) (k : List Token) :
    step around pass path base index (.lit TokenId.endif) k
        { s with log := log, branches := top :: s.branches }
      = .next 1 (hide [.lit TokenId.endif]) { s with log := log } := by
  rw [step_directive rfl, directiveStep, endifStep, withBranch_cons rfl hbase]
  simp only [hdeferred, Bool.false_eq_true, if_false]
  rfl

theorem Chain.render_append (c : Chain) (k : List Token) :
    c.render ++ k = c.first.render ++ (renderArms c.arms ++ .lit TokenId.endif :: k) := by
  simp [Chain.render]

theorem Chain.length_render (c : Chain) :
    c.render.length = c.first.render.length + (renderArms c.arms).length + 1 := by
  simp only [Chain.render, List.length_append, List.length_singleton, Nat.add_assoc]

/-- The run over the first part of a chain. -/
theorem leads_first (base : Nat) (hdecided : c.head.isDeferred pass = false)
    (hreadable : c.Readable) (s : PassState σ) (index : Nat) (k : List Token) :
    ∃ log top, Branch.Stands top (c.first.isTrue around pass s) false ∧
      Leads around pass path base ⟨index, c.render ++ k, s⟩
        (if c.first.isTrue around pass s then c.first.shown pass s else hide c.first.render)
        ⟨index + c.first.render.length, renderArms c.arms ++ .lit TokenId.endif :: k,
          { s with log := log, branches := top :: s.branches }⟩ := by
  have hfirst := (hreadable c.first List.mem_cons_self).behind c.arms k
  obtain ⟨log, top, htop, hstep⟩ := step_first path base s index hdecided hfirst c.block
  have hrun := leads_part path c.first (deadLength?_renderArms c.arms k) hstep
  rw [Part.shown_log] at hrun
  rw [c.render_append]
  exact ⟨log, top, htop, hrun⟩

/-- A chain that does not stray is gone through as a whole. -/
theorem leads_chain (hdecided : c.head.isDeferred pass = false)
    (hbase : base ≤ s.branches.length) (hreadable : c.Readable)
    (hstays : ¬ Strays (·.isTrue around pass s) c.parts) (index : Nat) (k : List Token) :
    ∃ log, Leads around pass path base ⟨index, c.render ++ k, s⟩
      (leavings around pass s false c.parts ++ hide [.lit TokenId.endif])
      ⟨index + c.render.length, k, { s with log := log }⟩ := by
  rw [strays_iff, Bool.not_eq_true, Chain.parts, straysFrom, Bool.false_or] at hstays
  obtain ⟨log₁, top₁, htop₁, hfirst⟩ := leads_first path base hdecided hreadable s index k
  obtain ⟨log₂, top₂, htop₂, harms⟩ := leads_arms path htop₁ hbase
    (fun a ha => hreadable a.part (List.mem_cons_of_mem _ (List.mem_map_of_mem ha))) hstays
    (index + c.first.render.length) log₁ k
  have hend := Leads.one (step_endif path around pass htop₂ hbase log₂
    (index + c.first.render.length + (renderArms c.arms).length) k) rfl
  refine ⟨log₂, ?_⟩
  rw [c.length_render, ← Nat.add_assoc, ← Nat.add_assoc, Chain.parts, leavings]
  simp only [Bool.not_false, Bool.true_and, Bool.false_or]
  exact (hfirst.trans harms).trans hend

/-- A chain that strays ends the walk. -/
theorem fails_chain (hdecided : c.head.isDeferred pass = false)
    (hbase : base ≤ s.branches.length) (hreadable : c.Readable)
    (hstrays : Strays (·.isTrue around pass s) c.parts) (index : Nat) (k : List Token) :
    ∃ out place first rest t, index < place ∧ place < index + c.render.length ∧
      Leads around pass path base ⟨index, c.render ++ k, s⟩ out ⟨place, first :: rest, t⟩ ∧
      step around pass path base place first rest t = .failWith .elseAfterElse t := by
  rw [strays_iff, Chain.parts, straysFrom, Bool.false_or] at hstrays
  obtain ⟨log₁, top₁, htop₁, hfirst⟩ := leads_first path base hdecided hreadable s index k
  obtain ⟨out, place, first, rest, t, hle, hlt, hrun, hfail⟩ := fails_arms path htop₁ hbase
    (fun a ha => hreadable a.part (List.mem_cons_of_mem _ (List.mem_map_of_mem ha))) hstrays
    (index + c.first.render.length) log₁ k
  have hpos : 0 < c.first.render.length := by simp [Part.render, Opening.render]
  have hlength := c.length_render
  exact ⟨_, place, first, rest, t, by omega, by omega, hfirst.trans hrun, hfail⟩

/-- **A chain makes exactly the first true part live.**  In live text, where the pass decides the
conditional, a chain that does not stray leaves its first true part with its words replaced or
standing, and every other part hidden; no other word is visible, and behind the chain the state is
as in front of it, but for what was reported.  A chain strays exactly when the walk ends inside it,
and then for that reason. -/
theorem walk_chain (hdecided : c.head.isDeferred pass = false)
    (hbase : base ≤ s.branches.length) (hreadable : c.Readable)
    (enter : Bytes → List Token → PassState σ → PassResult σ) (name : Bytes) (index : Nat)
    (k : List Token) :
    (¬ Strays (·.isTrue around pass s) c.parts →
      ∃ log out,
        walk around pass enter path name base index (c.render ++ k) s
          = (walk around pass enter path name base (index + c.render.length) k
              { s with log := log }).prepend out ∧
        out = leavings around pass s false c.parts ++ hide [.lit TokenId.endif] ∧
        ((∀ w ∈ liveBlock (·.isTrue around pass s) c.parts, WellMarked (s.expansion pass w.id)) →
          visible out
            = visible (s.expansions pass (liveBlock (·.isTrue around pass s) c.parts)))) ∧
    (Strays (·.isTrue around pass s) c.parts →
      ∃ place, index < place ∧ place < index + c.render.length ∧
        (walk around pass enter path name base index (c.render ++ k) s).1
          = .error ⟨[.token name place], .elseAfterElse⟩) := by
  constructor
  · intro hstays
    obtain ⟨log, hrun⟩ := leads_chain path hdecided hbase hreadable hstays index k
    refine ⟨log, _, walk_of_leads enter name hrun, rfl, fun hmarked => ?_⟩
    have hend : visible (hide [.lit TokenId.endif]) = [] := visible_hide (.lit _ .nil)
    rw [visible_leavings hmarked, hend, List.append_nil]
  · intro hstrays
    obtain ⟨out, place, first, rest, t, hlt, hlt', hrun, hfail⟩ :=
      fails_chain path hdecided hbase hreadable hstrays index k
    refine ⟨place, hlt, hlt', ?_⟩
    rw [walk_of_leads enter name hrun, walk]
    simp only [hfail, Step.failWith]
    rfl

end Chain

/-- A branch for all other cases with a true one behind it is the one that is live, when nothing was
true before it.  Behind a true head it shuts the chain, and the walk ends at the next branch. -/
theorem walk_chain_else_elif :
    let s := Preprocessor.bare.start .first .empty ()
    let stay : PassState Unit → PassResult Unit := fun s => (.ok [], s)
    (∃ log out,
      walk Preprocessor.bare.around .first (fun _ _ => stay) [] [] 0 0
          ([6, 101, 102, 13, 103, 14, 45, 104, 12].map Token.lit) s
        = (walk Preprocessor.bare.around .first (fun _ _ => stay) [] [] 0 9 []
            { s with log := log }).prepend out ∧
      visible out = [103]) ∧
    ∃ place, 0 < place ∧ place < 9 ∧
      (walk Preprocessor.bare.around .first (fun _ _ => stay) [] [] 0 0
          ([6, 45, 102, 13, 103, 14, 45, 104, 12].map Token.lit) s).1
        = .error ⟨[.token [] place], .elseAfterElse⟩ := by
  intro s stay
  let asks (id : TokenId) (h : id.isExpressionSign = false) : Condition :=
    .last (.operand false ⟨id, h⟩)
  let arms : List Arm :=
    [⟨none, [⟨103, rfl⟩]⟩, ⟨some (.expression (asks 45 rfl)), [⟨104, rfl⟩]⟩]
  constructor
  · let c : Chain := ⟨.expression .ifTest false (asks 101 rfl), [⟨102, rfl⟩], arms⟩
    have hreadable : c.Readable :=
      List.forall_mem_cons.mpr ⟨⟨by decide, rfl⟩, List.forall_mem_cons.mpr ⟨trivial,
        List.forall_mem_singleton.mpr ⟨by decide, rfl⟩⟩⟩
    have hstays : ¬ Strays (·.isTrue Preprocessor.bare.around .first s) c.parts := by
      rw [strays_iff]
      decide
    obtain ⟨log, out, hwalk, -, hvisible⟩ :=
      (walk_chain [] rfl (Nat.zero_le _) hreadable (fun _ _ => stay) [] 0 []).1 hstays
    refine ⟨log, out, hwalk, (hvisible ?_).trans ?_⟩
    · exact List.forall_mem_singleton.mpr (.lit _ .nil)
    · exact visible_renderOrdinary [⟨103, rfl⟩] [] |>.trans (by rw [visible]; rfl)
  · let c : Chain := ⟨.expression .ifTest false (asks 45 rfl), [⟨102, rfl⟩], arms⟩
    have hreadable : c.Readable :=
      List.forall_mem_cons.mpr ⟨⟨by decide, rfl⟩, List.forall_mem_cons.mpr ⟨trivial,
        List.forall_mem_singleton.mpr ⟨by decide, rfl⟩⟩⟩
    have hstrays : Strays (·.isTrue Preprocessor.bare.around .first s) c.parts :=
      ⟨[c.first], _, _, rfl, rfl, ⟨c.first, List.mem_cons_self, rfl⟩, List.cons_ne_nil _ _⟩
    exact (walk_chain [] rfl (Nat.zero_le _) hreadable (fun _ _ => stay) [] 0 []).2 hstrays

end EffectScript
