import Mathlib
import EffectScript.Proofs.Resemblance
import EffectScript.Proofs.Resolution

/-!
# Including a file and pasting it

A file that is included is gone through by a call of its own.  It has its own indices, may not
include itself, cannot reach the conditionals around it, and nothing follows its last token.  A text
that is pasted has none of these.  Still the two come to the same, when the file succeeds.

The first three make no difference because what succeeds does so with more room and counted from
anywhere (`Proofs/Resemblance`).  The end of the file does make one: a definition without its end
goes to the end of the file, and pasted it goes on into what follows.  So does a text that is given
away.  Files in which that happens are excluded (`Pastable`).

Main statement: `inclusion_pastes`.  `inclusion_ends_definition` is a file for which it fails.
-/

namespace EffectScript

variable {σ : Type}

/-! ## 1. The last step of a file

A step on the way looks at the token behind what it takes, and there is one.  The last step finds
the end of the file there, and in the pasted text whatever follows.  It would notice in three cases:
an expression might go on, dead text that was never ended might find its end, and a definition or a
text might go on.  The first two leave a conditional of the file open, so that the file fails at its
end; the last is excluded. -/

/-- Whether a token starts a definition. -/
def Token.startsDefinition (t : Token) : Bool :=
  match t.directive? with
  | some (.define _) => true
  | _ => false

/-- Whether every definition in the text has its end behind its name. -/
def endsDefinitions : List Token → Bool
  | [] => true
  | t :: rest =>
    (!t.startsDefinition || rest.tail.contains (.lit TokenId.eol)) && endsDefinitions rest

/-- A text of literal tokens that gives no text away and whose definitions end in it. -/
structure Pastable (tokens : List Token) : Prop where
  lits : ∀ t ∈ tokens, t.isLit
  silent : ∀ t ∈ tokens, t ≠ .lit TokenId.warning ∧ t ≠ .lit TokenId.registerEnv
  ended : endsDefinitions tokens

theorem Pastable.tail {first : Token} {rest : List Token} (h : Pastable (first :: rest)) :
    Pastable rest := by
  have hended := h.ended
  rw [endsDefinitions, Bool.and_eq_true] at hended
  exact ⟨fun t ht => h.lits t (List.mem_cons_of_mem _ ht),
    fun t ht => h.silent t (List.mem_cons_of_mem _ ht), hended.2⟩

theorem Pastable.drop {tokens : List Token} (h : Pastable tokens) (n : Nat) :
    Pastable (tokens.drop n) := by
  induction n generalizing tokens with
  | zero => exact h
  | succ n ih =>
    cases tokens with
    | nil => exact h
    | cons first rest => exact ih h.tail

section LastStep

variable {around : Surroundings σ} {pass : Pass} {path : List Bytes} {base index used : Nat}
  {first : Token} {rest emitted : List Token} {s s' : PassState σ}

/-- A body whose end stands in the text is the same in front of any other. -/
theorem bodyOf_append {after : List Token} (h : .lit TokenId.eol ∈ after) (behind : List Token) :
    bodyOf (after ++ behind) = bodyOf after ∧ (bodyOf after).length < after.length := by
  induction after with
  | nil => cases h
  | cons t after ih =>
    by_cases ht : t = .lit TokenId.eol
    · subst ht
      exact ⟨rfl, Nat.succ_pos _⟩
    · have hne : (t != .lit TokenId.eol) = true := by simpa using ht
      have hmem : .lit TokenId.eol ∈ after := by
        rcases List.mem_cons.mp h with heq | hmem
        · exact absurd heq.symm ht
        · exact hmem
      obtain ⟨hbody, hlength⟩ := ih hmem
      simp only [bodyOf, List.cons_append, List.takeWhile_cons, hne, if_true] at hbody hlength ⊢
      exact ⟨by rw [hbody], by simpa using hlength⟩

/-- A definition whose end stands in the text. -/
theorem defineStep_ended {late : Bool} {id name : TokenId} {after : List Token}
    (hended : .lit TokenId.eol ∈ after)
    (h : defineStep pass late (.lit id :: .lit name :: after) s = .next used emitted s')
    (behind : List Token) :
    used ≤ after.length + 2 ∧
      defineStep pass late (.lit id :: .lit name :: (after ++ behind)) s
        = .next used emitted s' := by
  obtain ⟨hbody, hlength⟩ := bodyOf_append hended behind
  have hlonger : (bodyOf after).length < (after ++ behind).length := by
    rw [List.length_append]
    omega
  have hsize : defineLength (after ++ behind) = defineLength after := by
    rw [defineLength, defineLength, hbody, if_pos hlonger, if_pos hlength]
  have hle : defineLength after ≤ after.length + 2 := by
    rw [defineLength, if_pos hlength]
    omega
  have htake : (Token.lit id :: .lit name :: (after ++ behind)).take (defineLength after)
      = (Token.lit id :: .lit name :: after).take (defineLength after) := by
    rw [← List.cons_append, ← List.cons_append]
    exact List.take_append_of_le_length hle
  rw [defineStep_eq] at h ⊢
  rw [hsize, hbody, htake, h]
  cases h
  exact ⟨hle, rfl⟩

theorem includeStep_ne_next {tokens : List Token} :
    includeStep around path tokens s ≠ .next used emitted s' := by
  simp only [includeStep, Step.failWith]
  repeat' split
  all_goals simp

/-- A step takes a token at least. -/
theorem Deed.used_pos (h : Deed pass first rest s used emitted s') : 0 < used := by
  cases h with
  | word hid => exact Nat.one_pos
  | ending => exact Nat.one_pos
  | unit hmark => exact hiddenLength_pos hmark rest
  | define hid =>
    unfold defineLength
    omega
  | undefine hid => exact Nat.two_pos
  | hidden branches log env hid hd hwords hused =>
    obtain ⟨n, rfl⟩ := hused.exists_succ
    exact Nat.succ_pos n
  | shown branches => exact Nat.succ_pos _

theorem endifStep_used {tokens : List Token} (h : endifStep base tokens s = .next used emitted s') :
    used = 1 := by
  unfold endifStep withBranch Step.failWith at h
  repeat' split at h
  all_goals cases h
  rfl

/-- **The last step of a file is the same in front of any text.** -/
theorem step_last (hpastable : Pastable (first :: rest)) (hbase : base ≤ s.branches.length)
    (h : step around pass path base index first rest s = .next used emitted s')
    (hend : s'.branches.length ≤ base) (hused : rest.length < used) (behind : List Token) :
    used = rest.length + 1 ∧
      step around pass path base index first (rest ++ behind) s = .next used emitted s' := by
  have hlit := hpastable.lits first List.mem_cons_self
  obtain ⟨hwarning, hregister⟩ := hpastable.silent first List.mem_cons_self
  cases first with
  | skipOne => cases hlit
  | skipOpen => cases hlit
  | skipClose => cases hlit
  | lit id =>
  cases hid : Directive.ofId? id with
  | none =>
    simp only [step, hid] at h ⊢
    have hone : used = 1 := by
      rw [plainStep_eq] at h
      split at h <;> cases h <;> rfl
    exact ⟨by omega, h⟩
  | some d =>
    simp only [step, hid] at h ⊢
    -- A branch that starts leaves a conditional of the file open.
    have hbranch : ¬ d.branches := by
      intro hd
      have hopen := (branches_start hd h).base_lt hbase
      omega
    cases d with
    | ifTest negated late => exact absurd rfl hbranch
    | ifVar negated => exact absurd rfl hbranch
    | elifTest => exact absurd rfl hbranch
    | elifVar => exact absurd rfl hbranch
    | elseBranch => exact absurd rfl hbranch
    | includeFile => exact absurd h includeStep_ne_next
    | define late =>
      have hended := hpastable.ended
      rw [endsDefinitions, Bool.and_eq_true] at hended
      simp only [Token.startsDefinition, Token.directive?, hid, Bool.not_true, Bool.false_or,
        List.contains_iff_mem] at hended
      cases rest with
      | nil => cases h
      | cons u after =>
        cases u with
        | lit name =>
          obtain ⟨hle, hstep⟩ := defineStep_ended hended.1 h behind
          rw [List.tail_cons] at hle
          rw [List.length_cons] at hused ⊢
          exact ⟨by omega, hstep⟩
        | skipOne => cases h
        | skipOpen => cases h
        | skipClose => cases h
    | undefine =>
      cases rest with
      | nil => cases h
      | cons name after =>
        have htwo : used = 2 := by
          cases h
          rfl
        rw [List.length_cons] at hused ⊢
        exact ⟨by omega, h⟩
    | endif =>
      have hone := endifStep_used h
      exact ⟨by omega, h⟩
    | warning =>
      refine absurd (congrArg Token.lit ?_) hwarning
      unfold Directive.ofId? at hid
      split at hid <;> first | rfl | cases hid
    | registerEnv =>
      refine absurd (congrArg Token.lit ?_) hregister
      unfold Directive.ofId? at hid
      split at hid <;> first | rfl | cases hid

/-- **A step of a file is the same in the text pasted in front of another**: on the way, and at the
end of a file that leaves none of its conditionals open. -/
theorem step_paste (hpastable : Pastable (first :: rest)) (hbase : base ≤ s.branches.length)
    (h : step around pass path base index first rest s = .next used emitted s')
    (hend : rest.drop (used - 1) = [] → s'.branches.length ≤ base) (behind : List Token) :
    used ≤ rest.length + 1 ∧
      step around pass path base index first (rest ++ behind) s = .next used emitted s' := by
  have hpos := (step_deed h).used_pos
  cases hdrop : rest.drop (used - 1) with
  | nil =>
    have hlength := congrArg List.length hdrop
    rw [List.length_drop, List.length_nil] at hlength
    obtain ⟨hused, hstep⟩ := step_last hpastable hbase h (hend hdrop) (by omega) behind
    exact ⟨by omega, hstep⟩
  | cons t tail =>
    have hlength := congrArg List.length hdrop
    rw [List.length_drop, List.length_cons] at hlength
    have hrest : rest = rest.take (used - 1) ++ t :: tail := by
      rw [← hdrop, List.take_append_drop]
    have hmid : used ≤ (rest.take (used - 1)).length + 1 := by
      rw [List.length_take]
      omega
    rw [hrest] at h
    refine ⟨by omega, ?_⟩
    rw [hrest, List.append_assoc, List.cons_append]
    exact step_local h hmid (tail ++ behind)

end LastStep

/-! ## 2. Pasting -/

namespace Passes

variable {around : Surroundings σ} {pass : Pass}
  {enter enter' : Bytes → List Token → PassState σ → PassResult σ} {path : List Bytes}
  {base : Nat} {R : σ → σ → Prop} {a b : Cursor σ} {out : List Token}

/-- The conditionals outside a file stay as they are on a passage, when the files it includes keep
all of them. -/
theorem outer_eq
    (henter : ∀ {file inside inner s s'}, enter file inside s = (.ok inner, s') →
      s'.branches = s.branches)
    (h : Passes around pass enter path base a out b) (hbase : base ≤ a.state.branches.length) :
    base ≤ b.state.branches.length ∧
      Branch.outer base b.state.branches = Branch.outer base a.state.branches := by
  induction h with
  | refl a => exact ⟨hbase, rfl⟩
  | next hstep hrest ih =>
    obtain ⟨hbase₁, houter⟩ := (step_turns hstep).outer_eq hbase
    rw [← houter]
    exact ih hbase₁
  | enter hstep hinner hrest ih =>
    have hbranches := (henter hinner).trans (enter_branches hstep)
    dsimp only at hbase ih ⊢
    rw [hbranches] at ih
    exact ih hbase

/-- A passage over no token is none. -/
theorem eq_of_length_le (h : Passes around pass enter path base a out b)
    (hlength : a.tokens.length ≤ b.tokens.length) : out = [] ∧ b = a := by
  cases h with
  | refl => exact ⟨rfl, rfl⟩
  | next hstep hrest =>
    have hle := hrest.length_le
    simp only [List.length_drop, List.length_cons] at hle hlength
    omega
  | enter hstep hinner hrest =>
    have hle := hrest.length_le
    simp only [List.length_drop, List.length_cons] at hle hlength
    omega

/-- **A passage to the end of a file is one over the same text elsewhere**, in front of any other,
from a state that resembles the first. -/
theorem paste (haround : around.Respects R)
    (hkeep : ∀ {file inside inner s s'}, enter file inside s = (.ok inner, s') →
      s'.branches = s.branches)
    (henter : ∀ {file inside inner s s' t}, enter file inside s = (.ok inner, s') →
      s.Resembles R t → ∃ t', enter' file inside t = (.ok inner, t') ∧ s'.Resembles R t')
    (h : Passes around pass enter path base a out b) (hb : b.tokens = [])
    (hpastable : Pastable a.tokens) (hbase : base ≤ a.state.branches.length)
    (hend : b.state.branches.length ≤ base) {t : PassState σ} (ht : a.state.Resembles R t)
    (index : Nat) (behind : List Token) :
    ∃ t', b.state.Resembles R t' ∧
      Passes around pass enter' path base ⟨index, a.tokens ++ behind, t⟩ out
        ⟨index + a.tokens.length, behind, t'⟩ := by
  have hplace : ∀ {index used : Nat} {rest : List Token}, 0 < used → used ≤ rest.length + 1 →
      index + used + (rest.drop (used - 1)).length = index + (rest.length + 1) := by
    intro index used rest hpos hused
    rw [List.length_drop]
    omega
  induction h generalizing t index with
  | refl a =>
    rw [hb]
    exact ⟨t, ht, .refl _⟩
  | @next i used first rest emitted more s s' b hstep hrest ih =>
    have hpos := (step_deed hstep).used_pos
    obtain ⟨t₁, hstep₁, ht₁⟩ :=
      Step.Lockstep.of_next (hstep ▸ step_resembles haround first rest i index ht)
    have hlast : rest.drop (used - 1) = [] → t₁.branches.length ≤ base := by
      intro hdrop
      rw [hdrop] at hrest
      obtain ⟨-, rfl⟩ := hrest.eq_of_length_le (Nat.zero_le _)
      rw [ht₁.length_eq]
      exact hend
    obtain ⟨hused, hpasted⟩ :=
      step_paste hpastable (ht.length_eq ▸ hbase) hstep₁ hlast behind
    obtain ⟨hbase₁, -⟩ := (step_turns hstep).outer_eq hbase
    obtain ⟨t', ht', hpasses⟩ := ih hb (hpastable.tail.drop _) hbase₁ hend ht₁ (index + used)
    dsimp only at hpasses
    rw [hplace hpos hused, ← List.drop_append_of_le_length (by omega : used - 1 ≤ rest.length)]
      at hpasses
    exact ⟨t', ht', .next hpasted hpasses⟩
  | @enter i used first rest emitted file inner more name s s₁ s' b hstep hinner hrest ih =>
    obtain ⟨t₁, hstep₁, ht₁⟩ :=
      Step.Lockstep.of_enter (hstep ▸ step_resembles haround first rest i index ht)
    obtain ⟨t₂, hinner₂, ht₂⟩ := henter hinner ht₁
    have hbase₂ : base ≤ s'.branches.length := by
      rw [hkeep hinner, enter_branches hstep]
      exact hbase
    obtain ⟨t', ht', hpasses⟩ := ih hb (hpastable.tail.drop _) hbase₂ hend ht₂ (index + used)
    obtain ⟨token, after, _, _, rfl, rfl, rfl, -⟩ := step_eq_enter hstep
    have hused : 2 ≤ (token :: after).length + 1 := Nat.succ_le_succ (Nat.succ_pos _)
    dsimp only at hpasses
    rw [hplace Nat.two_pos hused] at hpasses
    exact ⟨t', ht', .enter hstep₁ hinner₂ hpasses⟩

/-- A passage takes the step that there is to take. -/
theorem of_next {index used : Nat} {first : Token} {rest emitted : List Token} {s s' : PassState σ}
    (h : Passes around pass enter path base ⟨index, first :: rest, s⟩ out b)
    (hstep : step around pass path base index first rest s = .next used emitted s')
    (hlength : b.tokens.length ≤ rest.length) :
    ∃ more, Passes around pass enter path base ⟨index + used, rest.drop (used - 1), s'⟩ more b := by
  cases h with
  | refl =>
    rw [List.length_cons] at hlength
    omega
  | next hstep' hrest =>
    rw [hstep] at hstep'
    cases hstep'
    exact ⟨_, hrest⟩
  | enter hstep' hinner hrest =>
    rw [hstep] at hstep'
    cases hstep'

/-- A passage over the two tokens of an inclusion goes through the file. -/
theorem of_inclusion {index i : Nat} {token : Token} {rest : List Token} {s s' : PassState σ}
    (h : Passes around pass enter path base
      ⟨index, .lit TokenId.includeFile :: token :: rest, s⟩ out
      ⟨i, rest, s'⟩) :
    ∃ used emitted name file inner s₁,
      step around pass path base index (.lit TokenId.includeFile) (token :: rest) s
        = .enter used emitted name file s₁ ∧
      enter name file s₁ = (.ok inner, s') ∧ out = emitted ++ inner := by
  generalize hb : (⟨i, rest, s'⟩ : Cursor σ) = b at h
  cases h with
  | refl =>
    have hlength := congrArg (fun c : Cursor σ => c.tokens.length) hb
    simp only [List.length_cons] at hlength
    omega
  | next hstep hrest =>
    change includeStep around path (.lit TokenId.includeFile :: token :: rest) s = _ at hstep
    exact absurd hstep includeStep_ne_next
  | enter hstep hinner hrest =>
    obtain ⟨_, _, _, _, -, -, rfl, -⟩ := step_eq_enter hstep
    subst hb
    obtain ⟨rfl, hsame⟩ := hrest.eq_of_length_le (Nat.le_refl _)
    cases hsame
    exact ⟨_, _, _, _, _, _, hstep, hinner, List.append_nil _⟩

end Passes

section Sources

variable {total : Nat} {rest : Bytes} {ids : List TokenId} {table table' : SpellingTable}

/-- The line of a definition is read apart from what follows it. -/
theorem readFrom_define_zero
    (h : Script.readFrom total (0x0A :: rest) table = .ok (ids, table')) :
    Script.readFrom total (Bytes.ofString "\n#define 0 1" ++ 0x0A :: rest) table
      = .ok ([TokenId.define, TokenId.zero, TokenId.one, TokenId.eol] ++ ids, table') := by
  have hitem : Item.next? total (Bytes.ofString "\n#define 0 1" ++ 0x0A :: rest)
      = .ok (some (.definition [0x30] (Word.all [0x31]), 0x0A :: rest)) := by cbv
  exact Script.readFrom_define_word hitem (by cbv) (by cbv) h

theorem readFrom_endif_zero (total : Nat) (table : SpellingTable) :
    Script.readFrom total (Bytes.ofString "\n#endif\n0") table
      = .ok ([TokenId.endif] ++ ([TokenId.zero] ++ []), table) :=
  Script.readFrom_item (by cbv) (by cbv) (Script.readFrom_item (by cbv) (by cbv)
    (Script.readFrom_end (by cbv) _))

theorem readFrom_if_one (h : Script.readFrom total (0x0A :: rest) table = .ok (ids, table')) :
    Script.readFrom total (Bytes.ofString "#if 1" ++ 0x0A :: rest) table
      = .ok ([TokenId.ifTest] ++ ([TokenId.one] ++ ids), table') :=
  Script.readFrom_item (by cbv) (by cbv) (Script.readFrom_item (by cbv) (by cbv) h)

theorem readFrom_undefine_include (total : Nat) (table : SpellingTable) :
    Script.readFrom total (Bytes.ofString "#undefine #include \"#define\" 0 1") table
      = .ok ([3] ++ ([TokenId.includeFile, TokenId.define] ++ ([TokenId.zero] ++
          ([TokenId.one] ++ []))), table) :=
  Script.readFrom_item (by cbv) (by cbv) (Script.readFrom_item (by cbv) (by cbv)
    (Script.readFrom_item (by cbv) (by cbv) (Script.readFrom_item (by cbv) (by cbv)
      (Script.readFrom_end (by cbv) _))))

end Sources

/-- **Including a file is pasting it.**  Let a pass, somewhere in a file and in any state, get over
a live `#include` of a bin that was made from a source.  Pasted there instead, in front of any text
and with its spellings known, the tokens of the bin are gone through without an error up to that
text.  Both ways leave the same macros for both passes, the same spellings and the same open
conditionals.  The inclusion puts out its two tokens, hidden, and then what the pasted tokens do.

The relation `R` is between states of the resolver that cannot be told apart, and asking for the
file must lead to such a state.  Where the answers depend on the name alone, any two states are
related. -/
theorem inclusion_pastes {around : Surroundings σ} {pass : Pass} {levels base index : Nat}
    {path : List Bytes} {resolver : Resolver σ} {R : σ → σ → Prop} {label source name : Bytes}
    {bin : Bin} {token : Token} {rest out : List Token} {s s' : PassState σ}
    (hresolver : around.resolver = some resolver) (haround : around.Respects R)
    (hbin : Bin.ofSource label source = .ok bin)
    (hsilent : ∀ t ∈ bin.tokens, t ≠ .lit TokenId.warning ∧ t ≠ .lit TokenId.registerEnv)
    (hended : endsDefinitions bin.tokens) (hbase : base ≤ s.branches.length)
    (hname : s.table.spelling? token.id = some name)
    (hfile : (resolver.resolve name s.source).answer = .ok ⟨bin.tokens, bin.table⟩)
    (hasked : R (resolver.resolve name s.source).source s.source)
    (h : Passes around pass (entering around pass levels path) path base
      ⟨index, .lit TokenId.includeFile :: token :: rest, s⟩ out ⟨index + 2, rest, s'⟩)
    (place : Nat) (behind : List Token) :
    ∃ inner t', out = hide [.lit TokenId.includeFile, token] ++ inner ∧
      Passes around pass (entering around pass levels path) path base
        ⟨place, bin.tokens ++ behind, { s with table := s.table.merge bin.table }⟩ inner
        ⟨place + bin.tokens.length, behind, t'⟩ ∧
      t'.early = s'.early ∧ t'.late = s'.late ∧ t'.table = s'.table ∧
      t'.branches = s'.branches := by
  obtain ⟨used, emitted, file, inside, inner, s₁, hstep, hinner, rfl⟩ := h.of_inclusion
  change includeStep around path (.lit TokenId.includeFile :: token :: rest) s = _ at hstep
  simp only [includeStep, List.tail_cons, hname, hresolver, hfile, Step.failWith] at hstep
  split at hstep
  · cases hstep
  cases hstep
  let asked : PassState σ :=
    { s with
      log := s.log ++ (resolver.resolve name s.source).log
      source := (resolver.resolve name s.source).source
      table := s.table.merge bin.table }
  let pasted : PassState σ := { s with table := s.table.merge bin.table }
  change entering around pass levels path name bin.tokens asked = (.ok inner, s') at hinner
  cases levels with
  | zero => cases hinner
  | succ levels =>
  -- The file is passed over to its end; so is the pasted text, at first as if it were a file too.
  obtain ⟨hend, i, hpasses⟩ := passes_of_walk hinner
  have hpastable : Pastable bin.tokens := ⟨isLit_of_ofSource hbin, hsilent, hended⟩
  have hstart : asked.Resembles R pasted := ⟨asked, .refl asked, _, _, _, hasked, rfl⟩
  obtain ⟨t', ht', hpasted⟩ := hpasses.paste haround (fun hfile => process_branches hfile)
    (fun hfile ht => (hfile ▸ process_resembles haround levels _ _ _ ht).of_ok) rfl hpastable
    (Nat.le_refl _) hend hstart place behind
  -- It keeps the conditionals around it, which are all that are open at its end.
  have hbranches : t'.branches = s'.branches := by
    have hinside : s'.branches = asked.branches := process_branches hinner
    have hlength : t'.branches.length = asked.branches.length := by rw [ht'.length_eq, hinside]
    have houter : Branch.outer asked.branches.length t'.branches
        = Branch.outer asked.branches.length asked.branches :=
      (hpasted.outer_eq (fun hfile => process_branches hfile) (Nat.le_refl _)).2
    rw [Branch.outer, Branch.outer, hlength, Nat.sub_self, List.drop_zero, List.drop_zero] at houter
    rw [houter, hinside]
  -- In the file around it has more room.
  have hroom := hpasted.room
    (fun {file _ _ _ _} hfile => process_room (Nat.le_succ levels)
      (List.cons_subset_cons file (List.subset_cons_self name path)) hfile)
    (List.subset_cons_self name path) hbase
  obtain ⟨u, ⟨branches, rfl, -⟩, log, env, source, -, rfl⟩ := ht'
  exact ⟨inner, _, rfl, hroom, rfl, rfl, rfl, hbranches⟩

/-- A file with a conditional, a definition in it and a word that it replaces, included inside
another conditional. -/
theorem inclusion_pastes_conditional :
    let file : List Token := [.lit TokenId.ifTest, .lit TokenId.one, .lit TokenId.define,
      .lit TokenId.zero, .lit TokenId.one, .lit TokenId.eol, .lit TokenId.endif, .lit TokenId.zero]
    let files : Resolver Unit := ⟨fun _ _ => ⟨.ok ⟨file, .empty⟩, [], ()⟩, fun _ => 1⟩
    let around : Surroundings Unit := ⟨.empty, fun _ => none, some files⟩
    let s : PassState Unit :=
      ⟨.empty, .empty, .empty, [⟨false, true, false, 0, 0⟩], [], [], ()⟩
    ∃ bin out s', Bin.ofSource [] (Bytes.ofString "#if 1\n#define 0 1\n#endif\n0") = .ok bin ∧
      bin.tokens = file ∧ visible out = [TokenId.one] ∧
      Passes around .first (entering around .first 1 []) [] 0
        ⟨2, [.lit TokenId.includeFile, .lit TokenId.one, .lit TokenId.endif], s⟩ out
        ⟨4, [.lit TokenId.endif], s'⟩ ∧
      ∀ place behind, ∃ inner t',
        out = hide [.lit TokenId.includeFile, .lit TokenId.one] ++ inner ∧
        Passes around .first (entering around .first 1 []) [] 0
          ⟨place, bin.tokens ++ behind, { s with table := s.table.merge bin.table }⟩ inner
          ⟨place + bin.tokens.length, behind, t'⟩ ∧
        t'.early = s'.early ∧ t'.late = s'.late ∧ t'.table = s'.table ∧
          t'.branches = s'.branches := by
  intro file files around s
  obtain ⟨inner, s', hinner⟩ : ∃ inner s', entering around .first 1 [] [0x31] file s
      = (.ok inner, s') := ⟨_, _, by cbv⟩
  have hname : s.table.spelling? (Token.lit TokenId.one).id = some [0x31] := by cbv
  have hvisible : (entering around .first 1 [] [0x31] file s).1.map visible
      = .ok [TokenId.one] := by cbv
  have hstep : step around .first [] 0 2 (.lit TokenId.includeFile)
      [.lit TokenId.one, .lit TokenId.endif] s
        = .enter 2 (hide [.lit TokenId.includeFile, .lit TokenId.one]) [0x31] file s := by cbv
  have hpasses : Passes around .first (entering around .first 1 []) [] 0
      ⟨2, [.lit TokenId.includeFile, .lit TokenId.one, .lit TokenId.endif], s⟩
      (hide [.lit TokenId.includeFile, .lit TokenId.one] ++ inner ++ [])
      ⟨4, [.lit TokenId.endif], s'⟩ := .enter hstep hinner (.refl _)
  rw [List.append_nil] at hpasses
  have haround : around.Respects fun _ _ => True := by
    rintro resolver ⟨⟩ name a b -
    exact ⟨rfl, trivial⟩
  obtain ⟨bin, hbin, htokens, htable⟩ := exists_bin_of_readFrom [] (by decide)
    (readFrom_if_one (readFrom_define_zero (readFrom_endif_zero 26 .empty)))
  have hsilent : ∀ t ∈ bin.tokens, t ≠ .lit TokenId.warning ∧ t ≠ .lit TokenId.registerEnv := by
    rw [htokens]
    decide
  have hended : endsDefinitions bin.tokens := by
    rw [htokens]
    decide
  have hfile : (files.resolve [0x31] s.source).answer = .ok ⟨bin.tokens, bin.table⟩ := by
    rw [htokens, htable]
    rfl
  refine ⟨bin, _, s', hbin, htokens, ?_, hpasses, fun place behind => ?_⟩
  · rw [visible_hide_append (wellMarked_of_lits (by decide))]
    simpa [hinner, Except.map] using hvisible
  · exact inclusion_pastes rfl haround hbin hsilent hended (Nat.zero_le _) hname hfile
      trivial hpasses place behind

/-- **A definition without its end does not survive pasting.**  `#undefine` takes the `#include`
behind it for a name, so that the name of the file, `#define`, is left to start a definition.  In a
file of its own that ends with the file.  Pasted it goes on, and what follows the text is never
reached. -/
theorem inclusion_ends_definition :
    let file : List Token :=
      [.lit 3, .lit TokenId.includeFile, .lit TokenId.define, .lit TokenId.zero, .lit TokenId.one]
    let files : Resolver Unit := ⟨fun _ _ => ⟨.ok ⟨file, .empty⟩, [], ()⟩, fun _ => 1⟩
    let around : Surroundings Unit := ⟨.empty, fun _ => none, some files⟩
    let s : PassState Unit :=
      ⟨⟨[(TokenId.includeFile, ⟨[], 0⟩)]⟩, .empty, .empty, [], [], [], ()⟩
    ∃ bin, Bin.ofSource [] (Bytes.ofString "#undefine #include \"#define\" 0 1") = .ok bin ∧
      bin.tokens = file ∧ bin.table = .empty ∧
      (∀ t ∈ bin.tokens, t ≠ .lit TokenId.warning ∧ t ≠ .lit TokenId.registerEnv) ∧
      (∃ out s', Passes around .first (entering around .first 1 []) [] 0
        ⟨0, [.lit TokenId.includeFile, .lit TokenId.one, .lit TokenId.yes], s⟩ out
        ⟨2, [.lit TokenId.yes], s'⟩) ∧
      ¬ ∃ inner t', Passes around .first (entering around .first 1 []) [] 0
        ⟨0, bin.tokens ++ [.lit TokenId.yes], s⟩ inner
        ⟨bin.tokens.length, [.lit TokenId.yes], t'⟩ := by
  intro file files around s
  obtain ⟨inner, s', hinner⟩ : ∃ inner s', entering around .first 1 [] [0x31] file s
      = (.ok inner, s') := ⟨_, _, by cbv⟩
  have hstep : step around .first [] 0 0 (.lit TokenId.includeFile)
      [.lit TokenId.one, .lit TokenId.yes] s
        = .enter 2 (hide [.lit TokenId.includeFile, .lit TokenId.one]) [0x31] file s := by cbv
  -- In the pasted text the second step takes all there is.
  have hundefine : step around .first [] 0 0 (.lit 3)
      [.lit TokenId.includeFile, .lit TokenId.define, .lit TokenId.zero, .lit TokenId.one,
        .lit TokenId.yes] s
        = .next 2 (hide [.lit 3, .lit TokenId.includeFile]) { s with early := .empty } := by cbv
  obtain ⟨emitted, s₂, hdefine⟩ : ∃ emitted s₂, step around .first [] 0 2 (.lit TokenId.define)
      [.lit TokenId.zero, .lit TokenId.one, .lit TokenId.yes] { s with early := .empty }
        = .next 4 emitted s₂ := ⟨_, _, by cbv⟩
  obtain ⟨bin, hbin, htokens, htable⟩ := exists_bin_of_readFrom [] (by decide)
    (readFrom_undefine_include 32 .empty)
  have hsilent : ∀ t ∈ bin.tokens, t ≠ .lit TokenId.warning ∧ t ≠ .lit TokenId.registerEnv := by
    rw [htokens]
    decide
  refine ⟨bin, hbin, htokens, htable, hsilent, ⟨_, s', .enter hstep hinner (.refl _)⟩, ?_⟩
  rintro ⟨out, t', hpasses⟩
  rw [htokens] at hpasses
  obtain ⟨_, hafter⟩ := hpasses.of_next hundefine (by simp)
  obtain ⟨_, hend⟩ := hafter.of_next hdefine (Nat.succ_pos _)
  exact absurd hend.length_le (Nat.not_succ_le_zero 0)

end EffectScript
