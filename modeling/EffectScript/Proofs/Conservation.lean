import EffectScript.Proofs.Condition
import EffectScript.Proofs.PassRun

/-!
# Nothing is lost

A pass hides what it consumes and deletes nothing.  So its output, with the hidden tokens in it,
has the *content* of its input: the same literal tokens in the same order.  The content leaves out
the skip marks, which a pass adds, and the ends of definitions, which it drops outside a definition
and adds to one that the text breaks off; and it takes the two forms of a definition for one,
because the first pass leaves every definition in its late form.

Main statement: `run_keeps_content`.  The input is any list of tokens, marked or not and well formed
or not, that names no file.  The only step that changes the content is the one that replaces a
macro, so the statement is about runs in which no token is replaced.

What one step keeps is `step_keeps`, put together from one lemma for each directive; what a run
keeps follows by induction along the run (`Leads.keeps`).
-/

namespace EffectScript

variable {σ : Type}

/-! ## 1. The content of a text -/

/-- The id in which the two forms of a definition are one. -/
def TokenId.mergeForms (id : TokenId) : TokenId := if id = defineLate then define else id

/-- The literal tokens of a text, in order: no marks, no ends of definitions, and one form for both
kinds of definition. -/
def content (tokens : List Token) : List TokenId :=
  ((unmarked tokens).filter (· != TokenId.eol)).map TokenId.mergeForms

@[simp] theorem content_nil : content [] = [] := rfl

@[simp] theorem content_append (xs ys : List Token) :
    content (xs ++ ys) = content xs ++ content ys := by
  simp [content, unmarked]

theorem content_cons (t : Token) (rest : List Token) :
    content (t :: rest) = content [t] ++ content rest := content_append [t] rest

@[simp] theorem content_skipOne : content [.skipOne] = [] := rfl
@[simp] theorem content_skipOpen : content [.skipOpen] = [] := rfl
@[simp] theorem content_skipClose : content [.skipClose] = [] := rfl
@[simp] theorem content_eol : content [.lit TokenId.eol] = [] := rfl

/-- Hiding adds marks and nothing else. -/
@[simp] theorem content_hide (xs : List Token) : content (hide xs) = content xs := by
  unfold hide
  split
  · rfl
  · rename_i id
    rw [content_cons]
    rfl
  · rw [content_append, content_cons]
    simp

/-- The content before a place and from it on. -/
theorem content_take_drop (n : Nat) (xs : List Token) :
    content (xs.take n) ++ content (xs.drop n) = content xs := by
  rw [← content_append, List.take_append_drop]

/-! ## 2. What a step keeps -/

/-- A step takes at least one token off the text, and puts their content into the output. -/
def Step.Keeps (tokens : List Token) : Step σ → Prop
  | .next used emitted _ => 0 < used ∧ content emitted = content (tokens.take used)
  | .enter used emitted _ _ _ => 0 < used ∧ content emitted = content (tokens.take used)
  | .fail _ _ => True

theorem keeps_failWith {tokens : List Token} {c : Cause} {s : PassState σ} :
    (Step.failWith c s).Keeps tokens := trivial

theorem keeps_hide {tokens : List Token} {used : Nat} {s : PassState σ} (h : 0 < used) :
    (Step.next used (hide (tokens.take used)) s).Keeps tokens := ⟨h, content_hide _⟩

theorem keeps_show {tokens : List Token} {used : Nat} {s : PassState σ} (h : 0 < used) :
    (Step.next used (tokens.take used) s).Keeps tokens := ⟨h, rfl⟩

theorem branchStep_keeps {tokens : List Token} {used : Nat} (live : Bool) {s : PassState σ}
    (h : 0 < used) : (branchStep tokens used live s).Keeps tokens := by
  unfold branchStep
  split
  · exact keeps_hide h
  · split
    · exact keeps_hide (Nat.add_pos_left h _)
    · exact keeps_failWith

theorem withBranch_keeps {base : Nat} {directive : String} {tokens : List Token}
    {s : PassState σ} {go : Branch → Step σ} (h : ∀ top, (go top).Keeps tokens) :
    (withBranch base directive s go).Keeps tokens := by
  unfold withBranch
  split
  · exact keeps_failWith
  · split
    · exact keeps_failWith
    · exact h _

section Directives

variable {around : Surroundings σ} {pass : Pass} {path : List Bytes} {base index : Nat}
  {tokens : List Token} {s : PassState σ}

/-- The tokens of an expression and of the directive before it are at least one. -/
theorem used_pos (scope : Scope) (index : Nat) (tokens : List Token) :
    0 < (evaluate scope (index + 1) tokens).stop - index := by
  have h := le_stop_evaluate scope (index + 1) tokens
  omega

theorem ifTestStep_keeps (negated late : Bool) :
    (ifTestStep around pass index tokens negated late s).Keeps tokens := by
  have hused := used_pos (s.scope around pass) index tokens.tail
  unfold ifTestStep
  dsimp only
  split
  · exact keeps_failWith
  · split
    · exact keeps_show hused
    · exact branchStep_keeps _ hused

theorem ifVarStep_keeps (negated : Bool) :
    (ifVarStep around index tokens negated s).Keeps tokens := by
  unfold ifVarStep
  split
  · exact keeps_failWith
  · exact branchStep_keeps _ Nat.two_pos

theorem elifTestStep_keeps : (elifTestStep around pass base index tokens s).Keeps tokens := by
  have hused := used_pos (s.scope around pass) index tokens.tail
  refine withBranch_keeps fun top => ?_
  dsimp only
  split
  · exact keeps_failWith
  · split
    · exact keeps_show hused
    · split
      · exact keeps_failWith
      · split <;> exact branchStep_keeps _ hused

theorem elifVarStep_keeps : (elifVarStep around base tokens s).Keeps tokens := by
  refine withBranch_keeps fun top => ?_
  split
  · exact keeps_failWith
  · split
    · exact keeps_show Nat.two_pos
    · split
      · exact keeps_failWith
      · split <;> exact branchStep_keeps _ Nat.two_pos

theorem elseStep_keeps : (elseStep base tokens s).Keeps tokens := by
  refine withBranch_keeps fun top => ?_
  split
  · exact keeps_show Nat.one_pos
  · split
    · exact keeps_failWith
    · exact branchStep_keeps _ Nat.one_pos

theorem endifStep_keeps : (endifStep base tokens s).Keeps tokens := by
  refine withBranch_keeps fun top => ?_
  dsimp only
  split
  · exact keeps_show Nat.one_pos
  · exact keeps_hide Nat.one_pos

theorem undefineStep_keeps : (undefineStep pass tokens s).Keeps tokens := by
  unfold undefineStep
  split
  · exact keeps_failWith
  · exact keeps_hide Nat.two_pos

theorem includeStep_keeps : (includeStep around path tokens s).Keeps tokens := by
  unfold includeStep
  split
  · exact keeps_failWith
  · split
    · exact keeps_failWith
    · split
      · trivial
      · split
        · exact keeps_failWith
        · dsimp only
          split
          · trivial
          · exact ⟨Nat.two_pos, content_hide _⟩

/-! A definition is the one directive that the first pass does not leave as it is: it writes the
late form for the early one, and an end where the text has none. -/

/-- The body of a definition, with its end if there is one. -/
theorem content_take_body (after : List Token) :
    content (after.take ((bodyOf after).length +
        (if (bodyOf after).length < after.length then 1 else 0)))
      = content (bodyOf after) := by
  induction after with
  | nil => rfl
  | cons t rest ih =>
    by_cases ht : t = .lit TokenId.eol
    · subst ht
      simp [bodyOf]
    · have hbody : bodyOf (t :: rest) = t :: bodyOf rest := by simp [bodyOf, ht]
      rw [hbody, content_cons, ← ih]
      simp only [List.length_cons, Nat.add_lt_add_iff_right]
      rw [Nat.add_right_comm, List.take_succ_cons, content_cons]

theorem Directive.mergeForms_of_define {id : TokenId} {late : Bool}
    (h : Directive.ofId? id = some (.define late)) :
    content [.lit id] = content [.lit TokenId.defineLate] := by
  unfold Directive.ofId? at h
  split at h <;> first | rfl | cases h

theorem defineStep_keeps {late : Bool} {id : TokenId} {rest : List Token}
    (hid : Directive.ofId? id = some (.define late)) :
    (defineStep pass late (.lit id :: rest) s).Keeps (.lit id :: rest) := by
  unfold defineStep
  rw [List.tail_cons]
  split
  · rename_i name after
    have htake : content ((.lit id :: .lit name :: after).take (2 + (bodyOf after).length +
        (if (bodyOf after).length < after.length then 1 else 0)))
          = content [.lit TokenId.defineLate] ++ content [.lit name] ++ content (bodyOf after) := by
      rw [Nat.add_assoc, Nat.add_comm 2, List.take_succ_cons, List.take_succ_cons, content_cons,
        content_cons (.lit name), content_take_body, Directive.mergeForms_of_define hid,
        List.append_assoc]
    cases pass with
    | second => exact keeps_hide (by omega)
    | first =>
      refine ⟨by omega, ?_⟩
      rw [htake, content_hide, content_append, content_cons, content_cons (.lit name)]
      simp
  · exact keeps_failWith

/-- **What a directive keeps.** -/
theorem directiveStep_keeps {d : Directive} {id : TokenId} {rest : List Token}
    (hd : Directive.ofId? id = some d) :
    (directiveStep around pass path base index (.lit id :: rest) s d).Keeps (.lit id :: rest) := by
  cases d with
  | includeFile => exact includeStep_keeps
  | define late => exact defineStep_keeps hd
  | undefine => exact undefineStep_keeps
  | ifTest negated late => exact ifTestStep_keeps negated late
  | ifVar negated => exact ifVarStep_keeps negated
  | elifTest => exact elifTestStep_keeps
  | elifVar => exact elifVarStep_keeps
  | elseBranch => exact elseStep_keeps
  | endif => exact endifStep_keeps
  | warning => exact keeps_hide (by omega)
  | registerEnv => exact keeps_hide (by omega)

end Directives

theorem hiddenLength_pos {t : Token} (h : t.isLit = false) (rest : List Token) :
    0 < hiddenLength (t :: rest) := by
  cases t with
  | lit id => cases h
  | skipOne => cases rest <;> exact Nat.succ_pos _
  | skipOpen => exact Nat.succ_pos _
  | skipClose => exact Nat.succ_pos _

/-- **What a step keeps**, unless it replaces a macro. -/
theorem step_keeps {around : Surroundings σ} {pass : Pass} {path : List Bytes} {base index : Nat}
    {first : Token} {rest : List Token} {s : PassState σ}
    (hplain : ∀ id, first = .lit id → id.isOrdinary → (s.current pass).lookup? id = none) :
    (step around pass path base index first rest s).Keeps (first :: rest) := by
  cases first with
  | lit id =>
    simp only [step]
    split
    · rename_i d hd
      exact directiveStep_keeps hd
    · rename_i hd
      split
      · rename_i heol
        subst heol
        exact ⟨Nat.one_pos, rfl⟩
      · rename_i heol
        have hord : id.isOrdinary := by simp [TokenId.isOrdinary, hd, heol]
        rw [plainStep, hplain id rfl hord]
        exact ⟨Nat.one_pos, rfl⟩
  | skipOne => exact keeps_show (hiddenLength_pos rfl rest)
  | skipOpen => exact keeps_show (hiddenLength_pos rfl rest)
  | skipClose => exact keeps_show (hiddenLength_pos rfl rest)

/-! ## 3. What a run keeps -/

/-- No token that a pass meets as an ordinary one, on its way from a cursor, names a macro that the
pass replaces. -/
def ReplacesNothing (around : Surroundings σ) (pass : Pass) (path : List Bytes) (base : Nat)
    (a : Cursor σ) : Prop :=
  ∀ (out : List Token) (b : Cursor σ), Leads around pass path base a out b →
    ∀ (id : TokenId) (rest : List Token), b.tokens = .lit id :: rest → id.isOrdinary →
      (b.state.current pass).lookup? id = none

section Meeting

variable {around : Surroundings σ} {pass : Pass} {path : List Bytes} {base : Nat}

/-- Nothing is met at the end. -/
theorem replacesNothing_nil {index : Nat} {s : PassState σ} :
    ReplacesNothing around pass path base ⟨index, [], s⟩ := by
  intro out b h id rest hb
  cases h
  cases hb

/-- What is met from a cursor on: its first token, and what is met from behind its step on. -/
theorem ReplacesNothing.next {index used : Nat} {first : Token} {rest emitted : List Token}
    {s s' : PassState σ}
    (hfirst : ∀ id, first = .lit id → id.isOrdinary → (s.current pass).lookup? id = none)
    (hstep : step around pass path base index first rest s = .next used emitted s')
    (hrest : ReplacesNothing around pass path base ⟨index + used, rest.drop (used - 1), s'⟩) :
    ReplacesNothing around pass path base ⟨index, first :: rest, s⟩ := by
  intro out b h id tail hb
  cases h with
  | refl =>
    obtain ⟨rfl, rfl⟩ := List.cons.inj hb
    exact hfirst id rfl
  | next hstep' hleads =>
    rw [hstep] at hstep'
    cases hstep'
    exact hrest _ b hleads id tail hb

end Meeting

/-- **What a run keeps**: the content before its end is the content of its output. -/
theorem Leads.keeps {around : Surroundings σ} {pass : Pass} {path : List Bytes} {base : Nat}
    {a b : Cursor σ} {out : List Token} (h : Leads around pass path base a out b)
    (hplain : ReplacesNothing around pass path base a) :
    content out ++ content b.tokens = content a.tokens := by
  induction h with
  | refl a => rfl
  | @next index used first rest emitted more s s' b hstep hrest ih =>
    have hfirst : ∀ id, first = .lit id → id.isOrdinary → (s.current pass).lookup? id = none :=
      fun id hid => hplain [] _ (.refl _) id rest (congrArg (· :: rest) hid)
    have hkeeps : (step around pass path base index first rest s).Keeps (first :: rest) :=
      step_keeps hfirst
    rw [hstep] at hkeeps
    obtain ⟨hused, hcontent⟩ := hkeeps
    have hdrop : (first :: rest).drop used = rest.drop (used - 1) := by
      obtain ⟨n, rfl⟩ := Nat.exists_eq_add_of_le' hused
      rfl
    have hmore := ih fun out c hc => hplain _ c (.next hstep hc)
    rw [content_append, List.append_assoc, hmore, hcontent, ← hdrop]
    exact content_take_drop used (first :: rest)

/-- **Nothing is lost.**  A call that succeeds on tokens that name no file, and that replaces no
macro on its way, gives an output with the content of its input: for every pass, every setting and
every table, and whatever the tokens are. -/
theorem run_keeps_content (p : Preprocessor σ) (pass : Pass) (tokens out : List Token)
    (table : SpellingTable) (source : σ) (hfile : .lit TokenId.includeFile ∉ tokens)
    (hplain : ReplacesNothing p.around pass [] 0 (p.startCursor pass tokens table source))
    (hrun : (p.run pass.number tokens table source).result = .ok out) :
    content out = content tokens := by
  obtain ⟨b, hb, hleads⟩ := Preprocessor.leads_of_run hfile hrun
  have hkeeps := hleads.keeps hplain
  rw [hb, content_nil, List.append_nil] at hkeeps
  exact hkeeps

/-- A broken-off text: a closing mark that closes nothing, an ordinary token, and a definition
without an end.  The first pass writes the definition in its late form and gives it an end. -/
theorem run_keeps_content_brokenOff :
    let tokens : List Token :=
      [.skipClose, .lit 102, .lit TokenId.define, .lit 100, .lit 101]
    let out : List Token :=
      [.skipClose, .lit 102, .skipOpen, .lit TokenId.defineLate, .lit 100, .lit 101,
        .lit TokenId.eol, .skipClose]
    Token.lit TokenId.includeFile ∉ tokens ∧
      ReplacesNothing Preprocessor.bare.around .first [] 0
        (Preprocessor.bare.startCursor .first tokens .empty ()) ∧
      (Preprocessor.bare.run Pass.first.number tokens .empty ()).result = .ok out ∧
      content out = content tokens := by
  intro tokens out
  have hfile : Token.lit TokenId.includeFile ∉ tokens := by decide
  have hplain : ReplacesNothing Preprocessor.bare.around .first [] 0
      (Preprocessor.bare.startCursor .first tokens .empty ()) := by
    refine .next (fun id h => by cases h) rfl ?_
    refine .next (fun id h _ => rfl) rfl ?_
    refine .next (fun id h hord => ?_) rfl replacesNothing_nil
    cases h
    exact absurd hord (by decide)
  have hrun : (Preprocessor.bare.run Pass.first.number tokens .empty ()).result = .ok out := by
    have hleads := Leads.trans (Leads.one rfl rfl : Leads Preprocessor.bare.around .first [] 0
        (Preprocessor.bare.startCursor .first tokens .empty ()) [.skipClose] _)
      (.trans (.one rfl rfl) (.one rfl rfl))
    rw [Preprocessor.run_of_leads hleads rfl]
    rfl
  exact ⟨hfile, hplain, hrun, run_keeps_content .bare .first tokens out .empty () hfile hplain hrun⟩

end EffectScript
