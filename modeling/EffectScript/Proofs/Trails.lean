import Mathlib
import EffectScript.Proofs.Confinement

/-!
# The conditions behind a definition

A definition inside conditionals is recorded with condition bits: those of the conditionals that are
open.  An open conditional has one record of bits, but it may have asked several conditions by then,
its head and then one for every further branch on an expression.

Here a pass is followed together with the *trail* of every open conditional, the questions that it
has asked so far (`Recounts`).  The invariant ties the two stacks together (`Matches`): the bits of
a conditional are those of the question *in force*.  For a conditional that the pass decides this is
the last one, because a further branch on an expression overwrites what was there; for one that is
left to the other pass it is the first one, because its further branches leave the record alone.

So a definition keeps the bits of one question for every open conditional, and these are all that
were asked only if each conditional has asked at most one (`define_records_bits_in_force`).  The
bits of a head that did not hold are lost in the branch behind it (`define_loses_head_bits`).
-/

namespace EffectScript

variable {σ : Type}

/-! ## 1. Questions and trails -/

/-- An expression that was put to a scope, at the start of a text. -/
structure Question where
  scope : Scope
  index : Nat
  tokens : List Token

/-- The condition bits of the macros that a question consults. -/
def Question.bits (q : Question) : UInt64 := (evaluate q.scope q.index q.tokens).mask

/-- The question is a condition within the bounds that names an id. -/
def Question.Asks (q : Question) (id : TokenId) : Prop :=
  ∃ (c : Condition) (k : List Token),
    q.tokens = c.render ++ k ∧ c.Fits ∧ startsWithSign k = false ∧ id ∈ c.operands

/-- What an open conditional has asked, in order. -/
structure Trail where
  /-- Whether the conditional is for the other pass to decide. -/
  deferred : Bool
  questions : List Question

/-- The question whose bits the conditional keeps. -/
def Trail.inForce? (t : Trail) : Option Question :=
  if t.deferred then t.questions.head? else t.questions.getLast?

/-- The condition bits that the conditional keeps. -/
def Trail.bits (t : Trail) : UInt64 := t.inForce?.elim 0 Question.bits

/-- The condition bits of all open conditionals together. -/
def Trail.bitsAll (trails : List Trail) : UInt64 :=
  trails.foldr (fun t mask => t.bits ||| mask) 0

/-- Some condition bits are among others. -/
def Covers (mask bits : UInt64) : Prop := mask ||| bits = mask

/-- What a step does to the trails.  A conditional of which a branch was taken asks nothing more. -/
def trailsBehind (around : Surroundings σ) (pass : Pass) (index : Nat) (first : Token)
    (rest : List Token) (s : PassState σ) (trails : List Trail) : List Trail :=
  let question : Question := ⟨s.scope around pass, index + 1, rest⟩
  match first.directive? with
  | some (.ifTest _ late) => ⟨pass = .first && late, [question]⟩ :: trails
  | some (.ifVar _) => ⟨false, []⟩ :: trails
  | some .elifTest =>
    match s.branches, trails with
    | top :: _, trail :: outer =>
      (if top.deferred || !top.taken then
        { trail with questions := trail.questions ++ [question] } else trail) :: outer
    | _, _ => trails
  | some .endif => trails.tail
  | _ => trails

/-- What the next move does to the trails. -/
def Moment.trailsBehind (around : Surroundings σ) (pass : Pass) (m : Moment σ)
    (trails : List Trail) : List Trail :=
  match m.files with
  | ⟨_, _, index, first :: rest⟩ :: _ =>
    EffectScript.trailsBehind around pass index first rest m.state trails
  | _ => trails

/-- A run leads to a moment, and these are the trails of the conditionals that are open then. -/
inductive Recounts (around : Surroundings σ) (pass : Pass) (start : Moment σ) :
    Moment σ → List Trail → Prop
  | start : Recounts around pass start start []
  | move {a b : Moment σ} {trails : List Trail} {events : List Event} {emitted : List Token}
      (h : Recounts around pass start a trails) (hmove : Moves around pass a events emitted b) :
      Recounts around pass start b (a.trailsBehind around pass trails)

/-- Every run can be recounted. -/
theorem Runs.recounts {around : Surroundings σ} {pass : Pass} {start m : Moment σ}
    {story : List Event} {out : List Token} (h : Runs around pass start story out m) :
    ∃ trails, Recounts around pass start m trails := by
  refine h.invariant (fun m _ _ => ∃ trails, Recounts around pass start m trails) ?_
    ⟨[], .start⟩
  rintro a b story events out emitted ⟨trails, ha⟩ hmove
  exact ⟨_, ha.move hmove⟩

/-! ## 2. Condition bits -/

theorem Covers.or_left {mask bits : UInt64} (h : Covers mask bits) (more : UInt64) :
    Covers (more ||| mask) bits := by
  rw [Covers, UInt64.or_assoc, h]

theorem covers_or (bits more : UInt64) : Covers (bits ||| more) bits := by
  rw [Covers, UInt64.or_assoc, UInt64.or_comm more, ← UInt64.or_assoc, UInt64.or_self]

theorem covers_trans {mask bits more : UInt64} (h : Covers mask bits) (h' : Covers bits more) :
    Covers mask more := by
  unfold Covers at *
  rw [← h, UInt64.or_assoc, h']

theorem covers_bitsAll {trails : List Trail} {t : Trail} (h : t ∈ trails) :
    Covers (Trail.bitsAll trails) t.bits := by
  induction trails with
  | nil => cases h
  | cons first trails ih =>
    rcases List.mem_cons.mp h with rfl | h
    · exact covers_or _ _
    · exact (ih h).or_left _

theorem covers_maskOfAll {scope : Scope} {ids : List TokenId} {id : TokenId} (h : id ∈ ids) :
    Covers (scope.maskOfAll ids) (scope.maskOf id) := by
  induction ids with
  | nil => cases h
  | cons first ids ih =>
    rcases List.mem_cons.mp h with rfl | h
    · exact covers_or _ _
    · exact (ih h).or_left _

/-- The bits of a question are those of the macros it names. -/
theorem Question.covers {q : Question} {id : TokenId} (h : q.Asks id) :
    Covers q.bits (q.scope.maskOf id) := by
  obtain ⟨c, k, htokens, hfits, hsign, hid⟩ := h
  rw [Question.bits, htokens, evaluate_render _ hfits _ hsign]
  exact covers_maskOfAll hid

/-! ## 3. Conditionals and their trails -/

/-- The record of an open conditional, and its trail. -/
structure Matches (b : Branch) (t : Trail) : Prop where
  deferred : b.deferred = t.deferred
  asked : t.deferred = true → t.questions ≠ []
  mask : b.mask = t.bits

theorem maskAll_of_matches {branches : List Branch} {trails : List Trail}
    (h : List.Forall₂ Matches branches trails) :
    Branch.maskAll branches = Trail.bitsAll trails := by
  induction h with
  | nil => rfl
  | cons hfirst _ ih =>
    rw [Branch.maskAll, List.foldr_cons, hfirst.mask, Trail.bitsAll, List.foldr_cons]
    exact congrArg _ ih

/-- One more question of a conditional that the pass decides is in force, -/
theorem Trail.bits_decided {t : Trail} (h : t.deferred = false) (q : Question) :
    Trail.bits { t with questions := t.questions ++ [q] } = q.bits := by
  simp [bits, inForce?, h]

/-- and one more of a conditional for the other pass is not. -/
theorem Trail.bits_deferred {t : Trail} (h : t.deferred = true) (hne : t.questions ≠ [])
    (q : Question) : Trail.bits { t with questions := t.questions ++ [q] } = t.bits := by
  cases hquestions : t.questions with
  | nil => exact absurd hquestions hne
  | cons first more => simp [bits, inForce?, h, hquestions]

/-- A single question is in force. -/
theorem Trail.inForce?_of_length_le {t : Trail} (h : t.questions.length ≤ 1) {q : Question}
    (hq : q ∈ t.questions) : t.inForce? = some q := by
  cases hquestions : t.questions with
  | nil =>
    rw [hquestions] at hq
    cases hq
  | cons first more =>
    rw [hquestions, List.length_cons] at h
    obtain rfl : more = [] := List.eq_nil_of_length_eq_zero (by omega)
    rw [hquestions, List.mem_singleton] at hq
    simp [inForce?, hquestions, hq]

section Steps

variable {around : Surroundings σ} {pass : Pass} {path : List Bytes} {base index used : Nat}
  {first : Token} {rest emitted : List Token} {s s' : PassState σ} {trails : List Trail}

/-- A head puts a conditional on the stack, with its own question. -/
theorem ifTestStep_matches {negated late : Bool} (h : List.Forall₂ Matches s.branches trails)
    (hstep : ifTestStep around pass index (first :: rest) negated late s = .next used emitted s') :
    List.Forall₂ Matches s'.branches
      (⟨pass = .first && late, [⟨s.scope around pass, index + 1, rest⟩]⟩ :: trails) := by
  simp only [ifTestStep, Step.failWith] at hstep
  split at hstep
  · cases hstep
  · split at hstep
    · rename_i hlate
      cases hstep
      rw [hlate]
      exact .cons ⟨rfl, fun _ => List.cons_ne_nil _ _, rfl⟩ h
    · rename_i hdecided
      obtain ⟨rfl, -⟩ := branchStep_eq_next hstep
      rw [Bool.not_eq_true] at hdecided
      rw [hdecided]
      exact .cons ⟨rfl, by rintro ⟨⟩, rfl⟩ h

/-- A head on a runtime variable asks for no macro. -/
theorem ifVarStep_matches {negated : Bool} (h : List.Forall₂ Matches s.branches trails)
    (hstep : ifVarStep around index (first :: rest) negated s = .next used emitted s') :
    List.Forall₂ Matches s'.branches (⟨false, []⟩ :: trails) := by
  simp only [ifVarStep, List.tail_cons, Step.failWith] at hstep
  split at hstep
  · cases hstep
  · rename_i name _
    obtain ⟨log, hlog⟩ := s.testVariable_snd around name.id
    obtain ⟨rfl, -⟩ := branchStep_eq_next hstep
    rw [hlog]
    exact .cons ⟨rfl, by rintro ⟨⟩, rfl⟩ h

/-- A further branch on an expression: its question is in force from here on, unless the conditional
is for the other pass or has had its branch. -/
theorem elifTestStep_matches (h : List.Forall₂ Matches s.branches trails)
    (hfirst : first.directive? = some .elifTest)
    (hstep : elifTestStep around pass base index (first :: rest) s = .next used emitted s') :
    List.Forall₂ Matches s'.branches (trailsBehind around pass index first rest s trails) := by
  have hne : ∀ e t, elifTestStep around pass base index (first :: rest) s ≠ .fail e t := by
    intro e t
    rw [hstep]
    rintro ⟨⟩
  obtain ⟨top, outer, htop, -, hgoes⟩ := withBranch_ne_fail hne
  rw [elifTestStep, hgoes] at hstep
  rw [htop] at h
  cases h with
  | @cons _ trail _ trails hmatch houter =>
  simp only [trailsBehind, hfirst, htop]
  simp only [List.tail_cons, Step.failWith] at hstep
  split at hstep
  · cases hstep
  · rename_i holds _
    split at hstep
    · rename_i hdeferred
      cases hstep
      rw [htop, hdeferred, Bool.true_or, if_pos rfl]
      have htrail : trail.deferred = true := hmatch.deferred ▸ hdeferred
      refine .cons ⟨hmatch.deferred, fun _ => by simp, ?_⟩ houter
      rw [Trail.bits_deferred htrail (hmatch.asked htrail)]
      exact hmatch.mask
    · rename_i hdecided
      rw [Bool.not_eq_true] at hdecided
      have htrail : trail.deferred = false := hmatch.deferred ▸ hdecided
      split at hstep
      · cases hstep
      · split at hstep
        · rename_i htaken
          obtain ⟨rfl, -⟩ := branchStep_eq_next hstep
          rw [htop, hdecided, htaken]
          exact .cons hmatch houter
        · rename_i htaken
          rw [Bool.not_eq_true] at htaken
          obtain ⟨rfl, -⟩ := branchStep_eq_next hstep
          rw [PassState.setTop, htop, List.tail_cons, hdecided, htaken, Bool.false_or,
            Bool.not_false, if_pos rfl]
          refine .cons ⟨htrail.symm, ?_, ?_⟩ houter
          · intro hdeferred
            rw [htrail] at hdeferred
            cases hdeferred
          · rw [Trail.bits_decided htrail]
            rfl

/-- A branch on a runtime variable, or for all other cases, leaves the bits of its conditional
alone. -/
theorem divides_mask {d : Directive} (hd : d.divides) (htest : d ≠ .elifTest)
    (hstep : directiveStep around pass path base index (first :: rest) s d
      = .next used emitted s') :
    ∃ top top' outer, s.branches = top :: outer ∧ s'.branches = top' :: outer ∧
      top'.deferred = top.deferred ∧ top'.mask = top.mask := by
  have hne : ∀ e t, directiveStep around pass path base index (first :: rest) s d ≠ .fail e t := by
    intro e t
    rw [hstep]
    rintro ⟨⟩
  cases d with
  | elifTest => exact absurd rfl htest
  | elifVar =>
    obtain ⟨top, outer, htop, -, hgoes⟩ := withBranch_ne_fail hne
    rw [directiveStep, elifVarStep, hgoes] at hstep
    simp only [List.tail_cons, Step.failWith] at hstep
    repeat' split at hstep
    · cases hstep
    · cases hstep
      exact ⟨top, top, outer, htop, htop, rfl, rfl⟩
    · cases hstep
    · obtain ⟨rfl, -⟩ := branchStep_eq_next hstep
      exact ⟨top, top, outer, htop, htop, rfl, rfl⟩
    · rename_i name _ _ _ _
      obtain ⟨log, hlog⟩ := s.testVariable_snd around name.id
      obtain ⟨rfl, -⟩ := branchStep_eq_next hstep
      rw [hlog, PassState.setTop, htop, List.tail_cons]
      exact ⟨top, _, outer, rfl, rfl, rfl, rfl⟩
  | elseBranch =>
    obtain ⟨top, outer, htop, -, hgoes⟩ := withBranch_ne_fail hne
    rw [directiveStep, elseStep, hgoes] at hstep
    simp only [Step.failWith] at hstep
    repeat' split at hstep
    · cases hstep
      exact ⟨top, top, outer, htop, htop, rfl, rfl⟩
    · cases hstep
    · obtain ⟨rfl, -⟩ := branchStep_eq_next hstep
      rw [PassState.setTop, htop, List.tail_cons]
      exact ⟨top, _, outer, rfl, rfl, rfl, rfl⟩
  | _ => cases hd

theorem divides_matches {d : Directive} (hd : d.divides) (htest : d ≠ .elifTest)
    (h : List.Forall₂ Matches s.branches trails)
    (hstep : directiveStep around pass path base index (first :: rest) s d
      = .next used emitted s') :
    List.Forall₂ Matches s'.branches trails := by
  obtain ⟨top, top', outer, htop, htop', hdeferred, hmask⟩ := divides_mask hd htest hstep
  rw [htop] at h
  rw [htop']
  cases h with
  | cons hmatch houter =>
    exact .cons ⟨hdeferred.trans hmatch.deferred, hmatch.asked, hmask.trans hmatch.mask⟩ houter

theorem hidden_matches {id : TokenId} {d : Directive} (hd : d.isHidden)
    (hid : Directive.ofId? id = some d) (h : List.Forall₂ Matches s.branches trails)
    (hstep : directiveStep around pass path base index (.lit id :: rest) s d
      = .next used emitted s') :
    List.Forall₂ Matches s'.branches (trailsBehind around pass index (.lit id) rest s trails) := by
  have hfirst : (Token.lit id).directive? = some d := hid
  cases d with
  | elifTest => exact elifTestStep_matches h hfirst hstep
  | ifTest negated late =>
    simp only [trailsBehind, hfirst]
    exact ifTestStep_matches h hstep
  | ifVar negated =>
    simp only [trailsBehind, hfirst]
    exact ifVarStep_matches h hstep
  | elifVar =>
    simp only [trailsBehind, hfirst]
    exact divides_matches rfl (by rintro ⟨⟩) h hstep
  | elseBranch =>
    simp only [trailsBehind, hfirst]
    exact divides_matches rfl (by rintro ⟨⟩) h hstep
  | endif =>
    obtain ⟨b, -, hb⟩ := endifStep_pop hstep
    rw [hb] at h
    simp only [trailsBehind, hfirst]
    cases h with
    | cons _ houter => exact houter
  | warning =>
    cases hstep
    simp only [trailsBehind, hfirst]
    exact h
  | registerEnv =>
    cases hstep
    simp only [trailsBehind, hfirst]
    exact h
  | includeFile => cases hd
  | define late => cases hd
  | undefine => cases hd

theorem trailsBehind_of_none (hfirst : first.directive? = none) :
    trailsBehind around pass index first rest s trails = trails := by
  simp only [trailsBehind, hfirst]

/-- **A step keeps the conditionals and their trails together.** -/
theorem step_matches (h : List.Forall₂ Matches s.branches trails)
    (hstep : step around pass path base index first rest s = .next used emitted s') :
    List.Forall₂ Matches s'.branches (trailsBehind around pass index first rest s trails) := by
  cases step_deed hstep with
  | word hid =>
    simp only [TokenId.isOrdinary, Bool.and_eq_true, Option.isNone_iff_eq_none] at hid
    have hnone : (Token.lit _).directive? = none := hid.1
    rw [trailsBehind_of_none hnone]
    exact h
  | ending =>
    rw [trailsBehind_of_none rfl]
    exact h
  | unit hmark =>
    have hnone : first.directive? = none := by cases first <;> first | rfl | cases hmark
    rw [trailsBehind_of_none hnone]
    split
    · rw [replay_branches]
      exact h
    · exact h
  | define hid =>
    simp only [trailsBehind, Token.directive?, hid]
    exact h
  | undefine hid =>
    simp only [trailsBehind, Token.directive?, hid, forget_branches]
    exact h
  | hidden branches log env hid hd =>
    simp only [step, hid] at hstep
    exact hidden_matches hd hid h hstep
  | shown branches hid hd =>
    simp only [step, hid] at hstep
    exact hidden_matches (Directive.isHidden_of_isLeft hd) hid h hstep

end Steps

/-- **Every run keeps them together.** -/
theorem Recounts.isMatched {around : Surroundings σ} {pass : Pass} {start m : Moment σ}
    {trails : List Trail} (h : Recounts around pass start m trails)
    (hstart : start.state.branches = []) : List.Forall₂ Matches m.state.branches trails := by
  induction h with
  | start =>
    rw [hstart]
    exact .nil
  | move _ hmove ih =>
    cases hmove with
    | next hstep => exact step_matches ih hstep
    | enter hstep =>
      obtain ⟨_, _, _, _, rfl, -⟩ := step_eq_enter hstep
      rw [enter_branches hstep]
      exact ih
    | leave hend => exact ih

/-! ## 4. Definitions -/

/-- **A definition keeps the bits in force.**  Where the first pass comes to a plain definition, it
records it with the bits of one question for every open conditional: the last one that a conditional
it decides has asked, and the head of a conditional for the other pass.  These cover every macro
that such a question names.  Where a conditional has asked at most one condition that is all it has
asked. -/
theorem define_records_bits_in_force (p : Preprocessor σ) (tokens : List Token)
    (table : SpellingTable) (source : σ) {story : List Event} {out : List Token} {m : Moment σ}
    (hruns : Runs p.around .first (p.startMoment .first tokens table source) story out m)
    {path : List Bytes} {base index : Nat} {id name : TokenId} {after : List Token}
    {outer : List OpenFile}
    (hfiles : m.files = ⟨path, base, index, .lit id :: .lit name :: after⟩ :: outer)
    (hid : Directive.ofId? id = some (.define false)) :
    ∃ events emitted b, Moves p.around .first m events emitted b ∧
      (∃ trails, Recounts p.around .first (p.startMoment .first tokens table source) m trails) ∧
      ∀ trails, Recounts p.around .first (p.startMoment .first tokens table source) m trails →
        trails.length = m.state.branches.length ∧
        b.state.early.lookup? name = some ⟨bodyOf after, Trail.bitsAll trails⟩ ∧
        ∀ trail ∈ trails,
          (∀ q, trail.inForce? = some q → Covers (Trail.bitsAll trails) q.bits ∧
            ∀ id, q.Asks id → Covers (Trail.bitsAll trails) (q.scope.maskOf id)) ∧
          (trail.questions.length ≤ 1 → ∀ q ∈ trail.questions, trail.inForce? = some q) := by
  have hrecounts := hruns.recounts
  obtain ⟨files, s⟩ := m
  obtain rfl : files = _ := hfiles
  have hstep : step p.around .first path base index (.lit id) (.lit name :: after) s
      = .next (defineLength after) (hide (echo name (bodyOf after)))
          (s.enterMacro .first false name (bodyOf after)) := by
    rw [step_directive hid, directiveStep, defineStep_eq, if_pos rfl]
  refine ⟨_, _, _, .next hstep, hrecounts, fun trails htrails => ?_⟩
  have hmatched := htrails.isMatched rfl
  refine ⟨hmatched.length_eq.symm, ?_, fun trail htrail => ⟨?_, ?_⟩⟩
  · have hmask := maskAll_of_matches hmatched
    simp [PassState.enterMacro, MacroTable.lookup?_define, hmask]
  · intro q hq
    have hbits : trail.bits = q.bits := by
      rw [Trail.bits, hq]
      rfl
    have hcovers := covers_bitsAll htrail
    rw [hbits] at hcovers
    exact ⟨hcovers, fun id hasks => covers_trans hcovers (Question.covers hasks)⟩
  · intro hlength q hq
    exact Trail.inForce?_of_length_le hlength hq

/-- Behind a head for the other pass, on a macro with a bit of its own. -/
theorem define_records_bits_of_head :
    let tokens : List Token :=
      [.lit TokenId.defineLate, .lit 100, .lit TokenId.one, .lit TokenId.eol,
        .lit TokenId.ifdefLate,
        .lit 100, .lit TokenId.define, .lit 101, .lit TokenId.eol, .lit TokenId.endif]
    let start := Preprocessor.bare.startMoment .first tokens .empty ()
    ∃ m events emitted b, (∃ story out, Runs Preprocessor.bare.around .first start story out m) ∧
      Moves Preprocessor.bare.around .first m events emitted b ∧
      ∀ trails, Recounts Preprocessor.bare.around .first start m trails →
        trails.length = 1 ∧ b.state.early.lookup? 101 = some ⟨[], Trail.bitsAll trails⟩ := by
  intro tokens start
  have hruns : Runs Preprocessor.bare.around .first start _ _ _ :=
    .move (.next rfl) (.move (.next rfl) (.refl _))
  obtain ⟨events, emitted, b, hmove, -, hdefined⟩ := define_records_bits_in_force Preprocessor.bare
    tokens .empty () hruns rfl rfl
  refine ⟨_, events, emitted, b, ⟨_, _, hruns⟩, hmove, fun trails htrails => ?_⟩
  obtain ⟨hlength, hlookup, -⟩ := hdefined trails htrails
  exact ⟨hlength, hlookup⟩

/-- **The bits of a head that does not hold are lost** in the branch behind it: `#if !P`, `#elif Q`,
`#define X`, where `P` has a bit of its own and `Q` has none. -/
theorem define_loses_head_bits :
    let tokens : List Token :=
      [.lit TokenId.defineLate, .lit 100, .lit TokenId.one, .lit TokenId.eol,
        .lit TokenId.define, .lit 102, .lit TokenId.eol, .lit TokenId.ifdefLate, .lit 100,
        .lit TokenId.define, .lit 101, .lit TokenId.eol, .lit TokenId.endif,
        .lit TokenId.ifTest, .lit TokenId.notSign, .lit 101, .lit TokenId.elifTest, .lit 102,
        .lit TokenId.define, .lit 103, .lit TokenId.eol, .lit TokenId.endif]
    let start := Preprocessor.bare.startMoment .first tokens .empty ()
    ∃ m events emitted b trail q, Recounts Preprocessor.bare.around .first start m [trail] ∧
      Moves Preprocessor.bare.around .first m events emitted b ∧
      b.state.early.lookup? 103 = some ⟨[], 0⟩ ∧
      q ∈ trail.questions ∧ q.Asks 101 ∧ q.scope.maskOf 101 = 1 ∧ ¬ Covers 0 1 := by
  intro tokens start
  have hdead : deadLength? 0 (tokens.drop 16) = some 0 := (deadLength?.eq_def ..).trans rfl
  have h₀ : Recounts Preprocessor.bare.around .first start start [] := .start
  have h₁ := h₀.move (.next rfl)
  have h₂ := h₁.move (.next rfl)
  have h₃ := h₂.move (.next rfl)
  have h₄ := h₃.move (.next rfl)
  have h₅ := h₄.move (.next rfl)
  have hnext : ∀ t : PassState Unit, branchStep (tokens.drop 13) 3 false t
      = .next 3 (hide ((tokens.drop 13).take 3)) t := by
    intro t
    simp only [branchStep, Bool.false_eq_true, if_false]
    rw [show (tokens.drop 13).drop 3 = tokens.drop 16 from rfl, hdead]
  have h₆ := h₅.move (.next (Eq.trans rfl (hnext _)))
  have h₇ := h₆.move (.next rfl)
  refine ⟨_, _, _, _, _, _, h₇, .next rfl, rfl, List.mem_cons_self, ?_, rfl, ?_⟩
  · exact ⟨.last (.operand true ⟨101, rfl⟩), tokens.drop 16, rfl, by decide, rfl,
      List.mem_cons_self⟩
  · unfold Covers
    decide

end EffectScript
