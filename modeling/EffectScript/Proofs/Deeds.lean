import EffectScript.Proofs.Ruling

/-!
# What a step does

`step` chooses among a dozen functions, each with branches of its own.  Read from its result, a step
that stays in its file does one of seven things (`Deed`): it replaces a word, drops the end of a
definition, passes a hidden unit on, defines, undefines, hides a directive, or leaves a directive
for the other pass.  A step that leads into another file does one thing (`step_eq_enter`).

Main statement: `step_deed`.  What later modules say about steps they say about deeds.
-/

namespace EffectScript

variable {σ : Type}

/-! ## 1. Deeds -/

namespace PassState

/-- What a pass puts for a word. -/
def expansion (pass : Pass) (s : PassState σ) (id : TokenId) : List Token :=
  match (s.current pass).lookup? id with
  | some definition => definition.tokens
  | none => [.lit id]

/-- The state after a definition.  The first pass enters a late one among the macros of the second,
and inside a conditional also an early one. -/
def enterMacro (pass : Pass) (late : Bool) (name : TokenId) (body : List Token)
    (s : PassState σ) : PassState σ :=
  let definition : Definition :=
    ⟨body, if late then s.leadingMask body else Branch.maskAll s.branches⟩
  { s with
    early := if pass = .first ∧ late = false then s.early.define name definition else s.early
    late :=
      if pass = .first ∧ late = false ∧ s.branches = [] then s.late
      else s.late.define name definition }

/-- The state after forgetting a macro. -/
def forget (pass : Pass) (id : TokenId) (s : PassState σ) : PassState σ :=
  if (s.current pass).defines id then s.setCurrent pass ((s.current pass).erase id)
  else if pass = .first && s.late.defines id then { s with late := s.late.erase id }
  else s.warn (Bytes.ofString "couldn't find macro " ++ Text.quoted (s.table.spellingOrName id))

end PassState

/-- The text that the first pass leaves for a definition. -/
def echo (name : TokenId) (body : List Token) : List Token :=
  .lit TokenId.defineLate :: .lit name :: body ++ [.lit TokenId.eol]

/-- The number of tokens of a definition whose name stands in front of `after`. -/
def defineLength (after : List Token) : Nat :=
  2 + (bodyOf after).length + (if (bodyOf after).length < after.length then 1 else 0)

namespace Directive

/-- Whether a directive does nothing but open, divide or close a conditional, or give a text
away. -/
def isHidden : Directive → Bool
  | .includeFile => false
  | .define _ => false
  | .undefine => false
  | _ => true

/-- A step takes a directive with its operands, and perhaps the dead text behind them. -/
def Spans (d : Directive) (rest : List Token) (used : Nat) : Prop :=
  used = (d.operands rest).length + 1 ∨
    ∃ dead, deadLength? 0 (rest.drop (d.operands rest).length) = some dead ∧
      used = (d.operands rest).length + 1 + dead

theorem Spans.exists_succ {d : Directive} {rest : List Token} {used : Nat} (h : d.Spans rest used) :
    ∃ n, used = n + 1 := by
  rcases h with h | ⟨dead, -, h⟩ <;> exact ⟨used - 1, by omega⟩

end Directive

/-- What a step does with the first token, in front of `rest`: the number of tokens it takes, what
it puts out, and the state behind it. -/
inductive Deed (pass : Pass) :
    Token → List Token → PassState σ → Nat → List Token → PassState σ → Prop
  /-- Replace a word, or let it stand. -/
  | word {id : TokenId} {rest : List Token} {s : PassState σ} (hid : id.isOrdinary) :
      Deed pass (.lit id) rest s 1 (s.expansion pass id) s
  /-- Drop the end of a definition. -/
  | ending {rest : List Token} {s : PassState σ} : Deed pass (.lit TokenId.eol) rest s 1 [] s
  /-- Pass a hidden unit on. -/
  | unit {mark : Token} {rest : List Token} {s : PassState σ} (hmark : mark.isLit = false) :
      Deed pass mark rest s (hiddenLength (mark :: rest))
        ((mark :: rest).take (hiddenLength (mark :: rest)))
        (if pass = .second then replay s ((mark :: rest).take (hiddenLength (mark :: rest))) else s)
  /-- Define a macro. -/
  | define {id name : TokenId} {late : Bool} {after : List Token} {s : PassState σ}
      (hid : Directive.ofId? id = some (.define late)) :
      Deed pass (.lit id) (.lit name :: after) s (defineLength after)
        (if pass = .first then hide (echo name (bodyOf after))
          else hide ((.lit id :: .lit name :: after).take (defineLength after)))
        (s.enterMacro pass late name (bodyOf after))
  /-- Undefine a macro. -/
  | undefine {id : TokenId} {name : Token} {after : List Token} {s : PassState σ}
      (hid : Directive.ofId? id = some .undefine) :
      Deed pass (.lit id) (name :: after) s 2 (hide [.lit id, name]) (s.forget pass name.id)
  /-- Hide a directive, and the dead text behind it unless its branch is live. -/
  | hidden {id : TokenId} {d : Directive} {rest : List Token} {s : PassState σ} {used : Nat}
      (branches : List Branch) (log env : List Bytes) (hid : Directive.ofId? id = some d)
      (hd : d.isHidden) (hwords : d.isTest → ∀ t ∈ d.operands rest, t.id ≠ TokenId.eol)
      (hused : d.Spans rest used) (hsettled : s.Settled → ∀ b ∈ branches, b.deferred = false) :
      Deed pass (.lit id) rest s used (hide ((.lit id :: rest).take used))
        { s with branches := branches, log := log, env := env }
  /-- Leave a directive for the other pass. -/
  | shown {id : TokenId} {d : Directive} {rest : List Token} {s : PassState σ}
      (branches : List Branch) (hid : Directive.ofId? id = some d) (hd : d.isLeft)
      (hoperand : d = .elifVar → rest ≠ [])
      (hwords : d.isTest → ∀ t ∈ d.operands rest, t.id ≠ TokenId.eol)
      (hsettled : s.Settled → pass = .first ∧ d.opens) :
      Deed pass (.lit id) rest s ((d.operands rest).length + 1)
        ((.lit id :: rest).take ((d.operands rest).length + 1)) { s with branches := branches }

/-! ## 2. Every step that stays in its file is a deed -/

/-- What starting a branch does. -/
theorem branchStep_eq_next {tokens emitted : List Token} {size used : Nat} {live : Bool}
    {s s' : PassState σ} (h : branchStep tokens size live s = .next used emitted s') :
    s' = s ∧ emitted = hide (tokens.take used) ∧
      (used = size ∨ ∃ dead, deadLength? 0 (tokens.drop size) = some dead ∧
        used = size + dead) := by
  unfold branchStep at h
  split at h
  · cases h
    exact ⟨rfl, rfl, .inl rfl⟩
  · split at h
    · rename_i dead hdead
      cases h
      exact ⟨rfl, rfl, .inr ⟨dead, hdead, rfl⟩⟩
    · cases h

theorem MacroTable.define_define (t : MacroTable) (id : TokenId) (definition : Definition) :
    (t.define id definition).define id definition = t.define id definition := by
  simp [define, erase, List.filter_filter]

theorem textLength_le (tokens : List Token) : textLength tokens ≤ tokens.length := by
  cases tokens with
  | nil => exact Nat.le_refl 0
  | cons t rest =>
    have h := (List.takeWhile_sublist (· != Token.lit TokenId.quote) (l := rest)).length_le
    simp only [textLength, List.length_cons]
    split
    · split <;> omega
    · omega

section Deeds

variable {around : Surroundings σ} {pass : Pass} {path : List Bytes} {base index used : Nat}
  {id : TokenId} {rest emitted : List Token} {s s' : PassState σ}

/-- A directive that starts a branch hides what it takes, or leaves itself for the other pass. -/
theorem branches_deed {d : Directive} (hid : Directive.ofId? id = some d) (hd : d.branches)
    (h : directiveStep around pass path base index (.lit id :: rest) s d = .next used emitted s') :
    Deed pass (.lit id) rest s used emitted s' := by
  obtain ⟨more, hrest, hoperand, htest, r₀, hrule⟩ := ruled_of_next hd h
  obtain ⟨r, -, hfollows, hgo⟩ := hrule index s (.refl s)
  have hstep : directiveStep around pass path base index
      (.lit id :: (d.operands rest ++ more)) s d = _ := hgo more fun ht => (htest ht).1
  rw [← hrest, h] at hstep
  cases r with
  | leave s₁ =>
    obtain ⟨hleft, ⟨branches, rfl⟩, hsettled⟩ := hfollows
    cases hstep
    exact .shown branches hid hleft hoperand (fun ht => (htest ht).2) hsettled
  | branch live s₁ =>
    obtain ⟨⟨branches, log, rfl⟩, hsettled⟩ := hfollows
    obtain ⟨rfl, rfl, hused⟩ := branchStep_eq_next hstep.symm
    have hhidden : d.isHidden := by cases d <;> first | rfl | cases hd
    exact .hidden branches log s.env hid hhidden (fun ht => (htest ht).2) hused hsettled

theorem endifStep_deed (hid : Directive.ofId? id = some .endif)
    (h : endifStep base (.lit id :: rest) s = .next used emitted s') :
    Deed pass (.lit id) rest s used emitted s' := by
  have hne : ∀ e t, endifStep base (.lit id :: rest) s ≠ .fail e t := by
    intro e t
    rw [h]
    rintro ⟨⟩
  obtain ⟨top, outer, htop, -, hgoes⟩ := withBranch_ne_fail hne
  rw [endifStep, hgoes] at h
  cases h
  have houter : ∀ b ∈ s.branches.tail, b ∈ s.branches := fun b hb => List.mem_of_mem_tail hb
  split
  · rename_i hdeferred
    refine .shown _ hid rfl (by rintro ⟨⟩) (by rintro ⟨⟩) fun hsettled => ?_
    have hfalse := hsettled top (htop ▸ List.mem_cons_self)
    rw [hfalse] at hdeferred
    cases hdeferred
  · exact .hidden _ s.log s.env hid rfl (by rintro ⟨⟩) (.inl rfl) fun hsettled b hb =>
      hsettled b (houter b hb)

/-- What the first pass enters for a definition. -/
theorem enterMacro_first (late : Bool) (name : TokenId) (body : List Token) (s : PassState σ)
    (definition : Definition)
    (hdefinition : definition
      = ⟨body, if late then s.leadingMask body else Branch.maskAll s.branches⟩) :
    s.enterMacro .first late name body
      = (let s := if late then { s with late := s.late.define name definition }
          else { s with early := s.early.define name definition }
        if s.branches = [] then s else { s with late := s.late.define name definition }) := by
  subst hdefinition
  unfold PassState.enterMacro
  cases late with
  | false => by_cases hb : s.branches = [] <;> simp [hb]
  | true => by_cases hb : s.branches = [] <;> simp [hb, MacroTable.define_define]

theorem defineStep_eq (pass : Pass) (late : Bool) (first : Token) (name : TokenId)
    (after : List Token) (s : PassState σ) :
    defineStep pass late (first :: .lit name :: after) s
      = .next (defineLength after)
          (if pass = .first then hide (echo name (bodyOf after))
            else hide ((first :: .lit name :: after).take (defineLength after)))
          (s.enterMacro pass late name (bodyOf after)) := by
  cases pass with
  | first =>
    rw [enterMacro_first late name (bodyOf after) s _ rfl]
    rfl
  | second => rfl

theorem defineStep_deed {late : Bool} (hid : Directive.ofId? id = some (.define late))
    (h : defineStep pass late (.lit id :: rest) s = .next used emitted s') :
    Deed pass (.lit id) rest s used emitted s' := by
  cases rest with
  | nil => cases h
  | cons t after =>
    cases t with
    | lit name =>
      rw [defineStep_eq] at h
      cases h
      exact .define hid
    | skipOne => cases h
    | skipOpen => cases h
    | skipClose => cases h

theorem undefineStep_deed (hid : Directive.ofId? id = some .undefine)
    (h : undefineStep pass (.lit id :: rest) s = .next used emitted s') :
    Deed pass (.lit id) rest s used emitted s' := by
  cases rest with
  | nil => cases h
  | cons name after =>
    cases h
    exact .undefine hid

/-- A directive that gives a text away. -/
theorem text_deed {d : Directive} {log env : List Bytes} (hid : Directive.ofId? id = some d)
    (hops : d.operands rest = rest.take (textLength rest)) (hd : d.isHidden) (ht : d.isTest = false)
    (hused : used = 1 + textLength rest) :
    Deed pass (.lit id) rest s used (hide ((.lit id :: rest).take used))
      { s with log := log, env := env } := by
  refine .hidden s.branches log env hid hd (by simp [ht]) (.inl ?_) fun hsettled => hsettled
  rw [hused, hops, List.length_take, Nat.min_eq_left (textLength_le rest), Nat.add_comm]

theorem plainStep_eq (pass : Pass) (id : TokenId) (s : PassState σ) :
    plainStep pass id s = .next 1 (s.expansion pass id) s := by
  unfold plainStep PassState.expansion
  cases (s.current pass).lookup? id <;> rfl

theorem directiveStep_deed {d : Directive} (hid : Directive.ofId? id = some d)
    (h : directiveStep around pass path base index (.lit id :: rest) s d = .next used emitted s') :
    Deed pass (.lit id) rest s used emitted s' := by
  cases d with
  | includeFile =>
    simp only [directiveStep, includeStep, Step.failWith] at h
    repeat' split at h
    all_goals cases h
  | define late => exact defineStep_deed hid h
  | undefine => exact undefineStep_deed hid h
  | ifTest negated late => exact branches_deed hid rfl h
  | ifVar negated => exact branches_deed hid rfl h
  | elifTest => exact branches_deed hid rfl h
  | elifVar => exact branches_deed hid rfl h
  | elseBranch => exact branches_deed hid rfl h
  | endif => exact endifStep_deed hid h
  | warning =>
    cases h
    exact text_deed hid rfl rfl rfl (congrArg (1 + ·) (textArgument_snd s rest))
  | registerEnv =>
    cases h
    exact text_deed hid rfl rfl rfl (congrArg (1 + ·) (textArgument_snd s rest))

/-- **Every step that stays in its file is a deed.** -/
theorem step_deed {first : Token}
    (h : step around pass path base index first rest s = .next used emitted s') :
    Deed pass first rest s used emitted s' := by
  cases first with
  | lit id =>
    simp only [step] at h
    split at h
    · rename_i d hd
      exact directiveStep_deed hd h
    · rename_i hnone
      split at h
      · rename_i heol
        subst heol
        cases h
        exact .ending
      · rename_i heol
        have hid : id.isOrdinary := by simp [TokenId.isOrdinary, hnone, heol]
        rw [plainStep_eq] at h
        cases h
        exact .word hid
  | skipOne =>
    cases h
    exact .unit rfl
  | skipOpen =>
    cases h
    exact .unit rfl
  | skipClose =>
    cases h
    exact .unit rfl

/-- Nothing else is asked of the files. -/
theorem Deed.source_eq {first : Token} (h : Deed pass first rest s used emitted s') :
    s'.source = s.source := by
  cases h with
  | word hid => rfl
  | ending => rfl
  | unit hmark =>
    unfold replay
    repeat' split
    all_goals rfl
  | define hid => rfl
  | undefine hid =>
    unfold PassState.forget
    repeat' split
    · cases pass <;> rfl
    · rfl
    · rfl
  | hidden branches log env => rfl
  | shown branches => rfl

/-! ## 3. Steps into another file -/

/-- **A step into a file** hides the directive and the name, and asks the resolver. -/
theorem step_eq_enter {first : Token} {name : Bytes} {file : List Token}
    (h : step around pass path base index first rest s = .enter used emitted name file s') :
    ∃ token after resolver included, first = .lit TokenId.includeFile ∧ rest = token :: after ∧
      used = 2 ∧ emitted = hide [.lit TokenId.includeFile, token] ∧
      around.resolver = some resolver ∧
      (resolver.resolve name s.source).answer = .ok included ∧ file = included.tokens ∧
      s' = { s with
        log := s.log ++ (resolver.resolve name s.source).log
        source := (resolver.resolve name s.source).source
        table := s.table.merge included.table } := by
  by_cases hfirst : first = .lit TokenId.includeFile
  · subst hfirst
    change includeStep around path (.lit TokenId.includeFile :: rest) s = _ at h
    unfold includeStep Step.failWith at h
    cases rest with
    | nil => cases h
    | cons token after =>
      dsimp only [List.tail_cons] at h
      split at h
      · cases h
      · split at h
        · cases h
        · rename_i resolver hresolver
          split at h
          · cases h
          · split at h
            · cases h
            · rename_i included hfound
              cases h
              exact ⟨token, after, resolver, included, rfl, rfl, rfl, rfl, hresolver, hfound, rfl,
                rfl⟩
  · exact absurd h (step_ne_enter hfirst)

end Deeds

end EffectScript
