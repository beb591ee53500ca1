import EffectScript.Proofs.DeadText
import EffectScript.Proofs.Pasting

/-!
# Where a branch ends

A branch ends at the next directive that goes on with its conditional, and there are two ways to
come to it.  A live branch is gone through step by step, and each directive in it takes its operands
along.  A dead branch is scanned (`deadLength?`): the scan counts the conditionals that are opened
and closed, and for it every token is one that may do so, an operand too.

So the two may come to different places.  They cannot as long as the operands of the directives in
the branch are balanced: then each step of the live branch is one that the scan makes too.

Main statement: `dead_branch_ends_alike`.  `dead_branch_ends_in_text` is a branch that ends early,
in the text of a warning, when it is dead.
-/

namespace EffectScript

variable {σ : Type}

/-! ## 1. The scan and a single token -/

/-- The number of conditionals that are open behind a directive, of `level` in front of it. -/
def Directive.levelBehind (d : Directive) (level : Nat) : Nat :=
  if d.opens then level + 1 else if d = .endif then level - 1 else level

namespace Token

/-- Whether a token goes on with a conditional that is open. -/
def continues (t : Token) : Bool := t.directive?.any Directive.continues

/-- The number of conditionals that are open behind a token, of `level` in front of it. -/
def levelBehind (t : Token) (level : Nat) : Nat :=
  match t.directive? with
  | some d => d.levelBehind level
  | none => level

theorem levelBehind_mark {mark : Token} (h : mark.isLit = false) (level : Nat) :
    mark.levelBehind level = level := by
  cases mark with
  | lit id => cases h
  | _ => rfl

theorem levelBehind_of_none {id : TokenId} (h : Directive.ofId? id = none) (level : Nat) :
    (lit id).levelBehind level = level := by
  rw [levelBehind, directive?, h]

theorem levelBehind_of_some {id : TokenId} {d : Directive} (h : Directive.ofId? id = some d)
    (level : Nat) : (lit id).levelBehind level = d.levelBehind level := by
  rw [levelBehind, directive?, h]

theorem continues_of_some {id : TokenId} {d : Directive} (h : Directive.ofId? id = some d) :
    (lit id).continues = d.continues := by
  rw [continues, directive?, h]
  rfl

/-- Conditionals further out do not matter to a token that goes on with none of them. -/
theorem levelBehind_add {t : Token} {level : Nat} (h : t.continues → 0 < level) (depth : Nat) :
    t.levelBehind (level + depth) = t.levelBehind level + depth := by
  unfold levelBehind
  cases hd : t.directive? with
  | none => rfl
  | some d =>
    have hend : d = .endif → 0 < level := by
      rintro rfl
      refine h ?_
      rw [continues, hd]
      rfl
    dsimp only [Directive.levelBehind]
    split
    · omega
    · split
      · rename_i hd
        have := hend hd
        omega
      · rfl

end Token

variable {level depth used : Nat} {id : TokenId} {d : Directive} {rest : List Token}

/-- The scan stops at a directive that goes on with the conditional of the dead text, -/
theorem deadLength?_continues {t : Token} (h : t.continues) :
    deadLength? 0 (t :: rest) = some 0 := by
  cases t with
  | lit id =>
    cases hid : Directive.ofId? id with
    | none =>
      rw [Token.continues, Token.directive?, hid] at h
      cases h
    | some d =>
      rw [Token.continues_of_some hid] at h
      have hopens : d.opens = false := by cases d <;> first | rfl | cases h
      rw [deadLength?.eq_def]
      simp only [hid, hopens, Bool.false_eq_true, if_false]
      split
      · rfl
      · rename_i hend
        rw [if_pos]
        simpa [Directive.continues, hend] using h
  | _ => cases h

/-- and goes over every other literal token. -/
theorem deadLength?_levelBehind (h : (Token.lit id).continues → 0 < level) :
    deadLength? level (.lit id :: rest)
      = (deadLength? ((Token.lit id).levelBehind level) rest).map (· + 1) := by
  cases hid : Directive.ofId? id with
  | none =>
    rw [Token.levelBehind_of_none hid]
    exact deadLength?_quiet hid
  | some d =>
    rw [Token.continues_of_some hid] at h
    rw [Token.levelBehind_of_some hid, deadLength?.eq_def]
    simp only [hid, Directive.levelBehind]
    split
    · rfl
    · split
      · rename_i hend
        subst hend
        obtain ⟨n, rfl⟩ := Nat.exists_eq_succ_of_ne_zero (Nat.ne_of_gt (h rfl))
        rfl
      · rw [if_neg]
        intro hstop
        rw [Bool.and_eq_true, decide_eq_true_eq] at hstop
        have := h (by rw [Directive.continues, hstop.1]; rfl)
        omega

/-- **Dead text inside dead text.**  Where the scan finds an end inside `level` conditionals, the
scan inside more of them comes by with `level` of them closed. -/
theorem deadLength?_add {dead : Nat} {text : List Token} (h : deadLength? level text = some dead)
    (depth : Nat) :
    deadLength? (level + depth) text = (deadLength? depth (text.drop dead)).map (· + dead) := by
  induction hn : text.length using Nat.strongRecOn generalizing level text dead with
  | ind n ih =>
  cases text with
  | nil =>
    rw [deadLength?] at h
    cases h
  | cons first rest =>
    rw [List.length_cons] at hn
    cases hfirst : first.isLit with
    | true =>
      cases first with
      | lit id =>
        by_cases hstop : (Token.lit id).continues → 0 < level
        · rw [deadLength?_levelBehind hstop] at h
          obtain ⟨dead, hrest, rfl⟩ := Option.map_eq_some_iff.mp h
          have hmore : (Token.lit id).continues → 0 < level + depth := fun hc => by
            have := hstop hc
            omega
          rw [deadLength?_levelBehind hmore, Token.levelBehind_add hstop,
            ih rest.length (by omega) hrest rfl, Option.map_map, List.drop_succ_cons]
          rfl
        · obtain ⟨hcontinues, hlevel⟩ := Classical.not_imp.mp hstop
          obtain rfl : level = 0 := by omega
          rw [deadLength?_continues hcontinues] at h
          cases h
          simp
      | _ => cases hfirst
    | false =>
      have hpos := hiddenLength_pos hfirst rest
      rw [deadLength?_mark level hfirst] at h
      obtain ⟨dead, hrest, rfl⟩ := Option.map_eq_some_iff.mp h
      have hlength : (rest.drop (hiddenLength (first :: rest) - 1)).length < n := by
        rw [List.length_drop]
        omega
      have hdrop : (first :: rest).drop (dead + hiddenLength (first :: rest))
          = (rest.drop (hiddenLength (first :: rest) - 1)).drop dead := by
        obtain ⟨m, hm⟩ := Nat.exists_eq_succ_of_ne_zero (Nat.ne_of_gt hpos)
        rw [hm, Nat.add_succ, List.drop_succ_cons, List.drop_drop, Nat.succ_sub_one, Nat.add_comm]
      rw [deadLength?_mark _ hfirst, ih _ hlength hrest rfl, Option.map_map, hdrop]
      congr 1
      funext k
      simp only [Function.comp_apply]
      omega

/-! ## 2. The scan and a step -/

theorem Directive.operands_isPrefix (d : Directive) (rest : List Token) :
    d.operands rest <+: rest := by
  cases d with
  | define late =>
    cases rest with
    | nil => exact List.nil_prefix
    | cons name after => exact (List.prefix_cons_inj name).mpr (List.takeWhile_prefix _)
  | elseBranch => exact List.nil_prefix
  | endif => exact List.nil_prefix
  | _ => exact List.take_prefix _ _

/-- The operands of the directive at the front of a text, if there is one, are balanced. -/
def OperandsBalanced : List Token → Prop
  | [] => True
  | first :: rest => ∀ d ∈ first.directive?, Balanced 0 (d.operands rest)

/-- The scan goes over balanced operands. -/
theorem deadLength?_operands (h : Balanced 0 (d.operands rest)) (level : Nat) :
    deadLength? level rest
      = (deadLength? level (rest.drop (d.operands rest).length)).map
          (· + (d.operands rest).length) := by
  obtain ⟨more, hmore⟩ := d.operands_isPrefix rest
  have hscan := h.deadLength?_inside level more
  have hdrop : rest.drop (d.operands rest).length = more :=
    (congrArg (List.drop _) hmore).symm.trans List.drop_left
  rw [Nat.zero_add, hmore] at hscan
  rw [hscan, hdrop]

/-- The scan goes over all that a directive takes, behind balanced operands also over dead text. -/
theorem deadLength?_spans (h : Balanced 0 (d.operands rest)) (hspans : d.Spans rest used)
    (level : Nat) :
    deadLength? level rest
      = (deadLength? level (rest.drop (used - 1))).map (· + (used - 1)) := by
  rw [deadLength?_operands h level]
  rcases hspans with rfl | ⟨dead, hdead, rfl⟩
  · rfl
  · have hscan := deadLength?_add hdead level
    rw [Nat.zero_add, List.drop_drop] at hscan
    have hused : (d.operands rest).length + 1 + dead - 1 = (d.operands rest).length + dead := by
      omega
    rw [hscan, Option.map_map, hused]
    congr 1
    funext k
    simp only [Function.comp_apply]
    omega

/-- The body of a definition goes to the end of the text, or its end is there. -/
theorem bodyOf_cases (after : List Token) :
    bodyOf after = after ∨ ∃ more, after = bodyOf after ++ .lit TokenId.eol :: more := by
  induction after with
  | nil => exact .inl rfl
  | cons t rest ih =>
    by_cases ht : t = .lit TokenId.eol
    · refine .inr ⟨rest, ?_⟩
      subst ht
      rfl
    · have hbody : bodyOf (t :: rest) = t :: bodyOf rest :=
        List.takeWhile_cons_of_pos (by simp [ht])
      rw [hbody]
      rcases ih with hall | ⟨more, hmore⟩
      · exact .inl (congrArg (t :: ·) hall)
      · exact .inr ⟨more, congrArg (t :: ·) hmore⟩

/-- The scan goes over a definition with balanced operands, and over the end of it. -/
theorem deadLength?_definition {name : TokenId} {after : List Token} {late : Bool}
    (h : Balanced 0 ((Directive.define late).operands (.lit name :: after))) (level : Nat) :
    deadLength? level (.lit name :: after)
      = (deadLength? level ((Token.lit name :: after).drop (defineLength after - 1))).map
          (· + (defineLength after - 1)) := by
  have hops : (Directive.define late).operands (.lit name :: after)
      = .lit name :: bodyOf after := rfl
  rw [deadLength?_operands h level, hops, List.length_cons]
  unfold defineLength
  rcases bodyOf_cases after with hall | ⟨more, hmore⟩
  · rw [hall, if_neg (Nat.lt_irrefl _)]
    have hused : 2 + after.length + 0 - 1 = after.length + 1 := by omega
    rw [hused]
  · have hlength := congrArg List.length hmore
    rw [List.length_append, List.length_cons] at hlength
    have hbody : after.drop (bodyOf after).length = .lit TokenId.eol :: more :=
      (congrArg (List.drop _) hmore).trans List.drop_left
    have hend : after.drop ((bodyOf after).length + 1) = more := by
      rw [← List.drop_drop, hbody]
      rfl
    have hused : 2 + (bodyOf after).length + 1 - 1 = (bodyOf after).length + 1 + 1 := by omega
    rw [if_pos (by omega), hused, List.drop_succ_cons, List.drop_succ_cons, hbody, hend,
      deadLength?_quiet rfl, Option.map_map]
    congr 1
    funext k
    simp only [Function.comp_apply]
    omega

section Steps

variable {around : Surroundings σ} {pass : Pass} {path : List Bytes} {base index : Nat}
  {first : Token} {emitted : List Token} {s s' : PassState σ}

/-- What the scan says about a directive, from what it says about the tokens that go with it. -/
theorem deadLength?_directive (hinside : (Token.lit id).continues → 0 < level) (hused : 0 < used)
    (h : ∀ level, deadLength? level rest
      = (deadLength? level (rest.drop (used - 1))).map (· + (used - 1))) :
    deadLength? level (.lit id :: rest)
      = (deadLength? ((Token.lit id).levelBehind level) (rest.drop (used - 1))).map (· + used) := by
  rw [deadLength?_levelBehind hinside, h, Option.map_map]
  congr 1
  funext k
  simp only [Function.comp_apply]
  omega

/-- **The scan makes the steps of a pass**, where the operands are balanced: unless it stops, it
comes by where the step ends, inside as many conditionals. -/
theorem deadLength?_step (h : step around pass path base index first rest s = .next used emitted s')
    (hbalanced : OperandsBalanced (first :: rest)) (hinside : first.continues → 0 < level) :
    deadLength? level (first :: rest)
      = (deadLength? (first.levelBehind level) (rest.drop (used - 1))).map (· + used) := by
  cases step_deed h with
  | word hid =>
    exact deadLength?_directive hinside Nat.one_pos fun level => by simp
  | ending => exact deadLength?_directive hinside Nat.one_pos fun level => by simp
  | unit hmark =>
    rw [Token.levelBehind_mark hmark]
    exact deadLength?_mark level hmark rest
  | define hid =>
    exact deadLength?_directive hinside (step_deed h).used_pos
      (deadLength?_definition (hbalanced _ hid))
  | undefine hid =>
    exact deadLength?_directive hinside Nat.two_pos (deadLength?_operands (hbalanced _ hid))
  | hidden branches log env hid hd hwords hused =>
    exact deadLength?_directive hinside (step_deed h).used_pos
      (deadLength?_spans (hbalanced _ hid) hused)
  | shown branches hid =>
    exact deadLength?_directive hinside (Nat.succ_pos _)
      (deadLength?_spans (hbalanced _ hid) (.inl rfl))

/-- So it does for a step into another file. -/
theorem deadLength?_enter {name : Bytes} {file : List Token}
    (h : step around pass path base index first rest s = .enter used emitted name file s')
    (hbalanced : OperandsBalanced (first :: rest)) (level : Nat) :
    deadLength? level (first :: rest)
      = (deadLength? level (rest.drop (used - 1))).map (· + used) := by
  obtain ⟨token, after, _, _, rfl, rfl, rfl, -⟩ := step_eq_enter h
  exact deadLength?_directive (by rintro ⟨⟩) Nat.two_pos
    (deadLength?_operands (hbalanced .includeFile rfl))

theorem hidden_levelBehind {tokens : List Token} (hd : d.isHidden)
    (h : directiveStep around pass path base index tokens s d = .next used emitted s') :
    s'.branches.length = d.levelBehind s.branches.length := by
  unfold Directive.levelBehind
  by_cases hopens : d.opens
  · obtain ⟨b, hb⟩ := opens_push hopens h
    rw [if_pos hopens, hb, List.length_cons]
  · rw [if_neg hopens]
    by_cases hdivides : d.divides
    · obtain ⟨b, b', outer, -, hb, hb'⟩ := divides_turn hdivides h
      rw [if_neg (by rintro rfl; cases hdivides), hb, hb', List.length_cons, List.length_cons]
    · cases d with
      | endif =>
        obtain ⟨b, -, hb⟩ := endifStep_pop h
        rw [if_pos rfl, hb, List.length_cons, Nat.add_sub_cancel]
      | warning =>
        cases h
        rfl
      | registerEnv =>
        cases h
        rfl
      | includeFile => cases hd
      | define late => cases hd
      | undefine => cases hd
      | _ => first | exact absurd rfl hopens | exact absurd rfl hdivides

/-- **A step opens and closes the conditionals that its first token says.** -/
theorem length_branches_step
    (h : step around pass path base index first rest s = .next used emitted s') :
    s'.branches.length = first.levelBehind s.branches.length := by
  cases step_deed h with
  | word hid =>
    rw [TokenId.isOrdinary, Bool.and_eq_true, Option.isNone_iff_eq_none] at hid
    rw [Token.levelBehind_of_none hid.1]
  | ending => rfl
  | unit hmark =>
    rw [Token.levelBehind_mark hmark]
    split
    · rw [replay_branches]
    · rfl
  | define hid =>
    rw [Token.levelBehind_of_some hid]
    rfl
  | undefine hid =>
    rw [Token.levelBehind_of_some hid, forget_branches]
    rfl
  | hidden branches log env hid hd =>
    rw [Token.levelBehind_of_some hid]
    simp only [step, hid] at h
    exact hidden_levelBehind hd h
  | shown branches hid hd =>
    rw [Token.levelBehind_of_some hid]
    simp only [step, hid] at h
    exact hidden_levelBehind (Directive.isHidden_of_isLeft hd) h

end Steps

/-! ## 3. The way through a live branch -/

/-- Whether a pass is at a directive that goes on with the innermost of `depth` open
conditionals. -/
def Cursor.endsBranch (depth : Nat) (c : Cursor σ) : Bool :=
  c.state.branches.length = depth && c.tokens.head?.any Token.continues

/-- A pass goes through a branch of the innermost of `depth` open conditionals, up to the directive
that ends it.  The texts are those in front of which it makes its steps. -/
inductive GoesThrough (around : Surroundings σ) (pass : Pass)
    (enter : Bytes → List Token → PassState σ → PassResult σ) (path : List Bytes)
    (base depth : Nat) :
    Cursor σ → List (List Token) → Cursor σ → Prop
  | ends {a : Cursor σ} (h : a.endsBranch depth) :
      GoesThrough around pass enter path base depth a [] a
  | next {index used : Nat} {first : Token} {rest emitted : List Token} {s s' : PassState σ}
      {texts : List (List Token)} {b : Cursor σ}
      (hinside : Cursor.endsBranch depth ⟨index, first :: rest, s⟩ = false)
      (hstep : step around pass path base index first rest s = .next used emitted s')
      (hrest : GoesThrough around pass enter path base depth
        ⟨index + used, rest.drop (used - 1), s'⟩ texts b) :
      GoesThrough around pass enter path base depth ⟨index, first :: rest, s⟩
        ((first :: rest) :: texts) b
  | enter {index used : Nat} {first : Token} {rest emitted file inner : List Token} {name : Bytes}
      {s s₁ s' : PassState σ} {texts : List (List Token)} {b : Cursor σ}
      (hinside : Cursor.endsBranch depth ⟨index, first :: rest, s⟩ = false)
      (hstep : step around pass path base index first rest s = .enter used emitted name file s₁)
      (hinner : enter name file s₁ = (.ok inner, s'))
      (hrest : GoesThrough around pass enter path base depth
        ⟨index + used, rest.drop (used - 1), s'⟩ texts b) :
      GoesThrough around pass enter path base depth ⟨index, first :: rest, s⟩
        ((first :: rest) :: texts) b

section Through

variable {around : Surroundings σ} {pass : Pass}
  {enter : Bytes → List Token → PassState σ → PassResult σ} {path : List Bytes} {base index : Nat}
  {first : Token} {emitted out : List Token} {s s' : PassState σ} {a b : Cursor σ}

theorem pos_of_endsBranch (h : Cursor.endsBranch depth ⟨index, first :: rest, s⟩ = false)
    (hlevel : s.branches.length = level + depth) (hcontinues : first.continues) : 0 < level := by
  rcases Nat.eq_zero_or_pos level with rfl | hpos
  · simp [Cursor.endsBranch, hlevel, hcontinues] at h
  · exact hpos

/-- A step inside a branch leaves its conditional open. -/
theorem length_branches_inside (h : Cursor.endsBranch depth ⟨index, first :: rest, s⟩ = false)
    (hlevel : s.branches.length = level + depth)
    (hstep : step around pass path base index first rest s = .next used emitted s') :
    s'.branches.length = first.levelBehind level + depth := by
  rw [length_branches_step hstep, hlevel,
    Token.levelBehind_add (pos_of_endsBranch h hlevel)]

/-- **A pass that leaves a conditional behind has gone through the branch it was in.** -/
theorem exists_goesThrough
    (hkeep : ∀ {file inside inner s s'}, enter file inside s = (.ok inner, s') →
      s'.branches = s.branches)
    (h : Passes around pass enter path base a out b)
    (hlevel : a.state.branches.length = level + depth) (hend : b.state.branches.length < depth) :
    ∃ texts c, GoesThrough around pass enter path base depth a texts c := by
  induction h generalizing level with
  | refl a =>
    rw [hlevel] at hend
    omega
  | @next index used first rest emitted more s s' b hstep hrest ih =>
    by_cases hhere : Cursor.endsBranch depth ⟨index, first :: rest, s⟩
    · exact ⟨[], _, .ends hhere⟩
    · rw [Bool.not_eq_true] at hhere
      obtain ⟨texts, c, hthrough⟩ := ih (length_branches_inside hhere hlevel hstep) hend
      exact ⟨_, c, .next hhere hstep hthrough⟩
  | @enter index used first rest emitted file inner more name s s₁ s' b hstep hinner hrest ih =>
    by_cases hhere : Cursor.endsBranch depth ⟨index, first :: rest, s⟩
    · exact ⟨[], _, .ends hhere⟩
    · rw [Bool.not_eq_true] at hhere
      have hbranches : s'.branches = s.branches := (hkeep hinner).trans (enter_branches hstep)
      obtain ⟨texts, c, hthrough⟩ := ih (hbranches ▸ hlevel) hend
      exact ⟨_, c, .enter hhere hstep hinner hthrough⟩

/-- What a step takes, in front of a part of a branch. -/
theorem append_branch (first : Token) {branch after : List Token} (hpos : 0 < used)
    (h : rest.drop (used - 1) = branch ++ after) (hne : after ≠ []) :
    ∃ taken, first :: rest = (taken ++ branch) ++ after ∧ taken.length = used := by
  have hlength := congrArg List.length h
  have hafter := List.length_pos_iff.mpr hne
  rw [List.length_drop, List.length_append] at hlength
  refine ⟨first :: rest.take (used - 1), ?_, ?_⟩
  · rw [List.append_assoc, ← h, List.cons_append, List.take_append_drop]
  · rw [List.length_cons, List.length_take]
    omega

namespace GoesThrough

variable {texts : List (List Token)}

theorem endsBranch (h : GoesThrough around pass enter path base depth a texts b) :
    b.endsBranch depth := by
  induction h with
  | ends h => exact h
  | next _ _ _ ih => exact ih
  | enter _ _ _ _ ih => exact ih

/-- **The scan comes to the end of a branch that a pass has gone through**, when the operands of the
directives in it are balanced. -/
theorem exists_branch (h : GoesThrough around pass enter path base depth a texts b)
    (hkeep : ∀ {file inside inner s s'}, enter file inside s = (.ok inner, s') →
      s'.branches = s.branches)
    (hlevel : a.state.branches.length = level + depth) :
    ∃ branch, a.tokens = branch ++ b.tokens ∧ b.index = a.index + branch.length ∧
      ((∀ text ∈ texts, OperandsBalanced text) →
        deadLength? level a.tokens = some branch.length) := by
  have hne : b.tokens ≠ [] := by
    intro hnil
    have hends := h.endsBranch
    simp [Cursor.endsBranch, hnil] at hends
  induction h generalizing level with
  | @ends a h =>
    rw [Cursor.endsBranch, Bool.and_eq_true, decide_eq_true_eq, Option.any_eq_true] at h
    obtain ⟨hdepth, first, hhead, hcontinues⟩ := h
    obtain ⟨rest, htokens⟩ := List.head?_eq_some_iff.mp hhead
    obtain rfl : level = 0 := by omega
    refine ⟨[], rfl, rfl, fun _ => ?_⟩
    rw [htokens, deadLength?_continues hcontinues]
    rfl
  | @next index used first rest emitted s s' texts b hinside hstep hrest ih =>
    obtain ⟨branch, hbranch, hindex, hscan⟩ :=
      ih (length_branches_inside hinside hlevel hstep) hne
    obtain ⟨taken, htaken, hlength⟩ :=
      append_branch first (step_deed hstep).used_pos hbranch hne
    refine ⟨taken ++ branch, htaken, ?_, fun hbalanced => ?_⟩
    · rw [hindex, List.length_append, hlength, Nat.add_assoc]
    · obtain ⟨hhere, hmore⟩ := List.forall_mem_cons.mp hbalanced
      rw [deadLength?_step hstep hhere (pos_of_endsBranch hinside hlevel), hscan hmore,
        List.length_append, hlength, Nat.add_comm used]
      rfl
  | @enter index used first rest emitted file inner name s s₁ s' texts b hinside hstep
      hinner hrest ih =>
    have hbranches : s'.branches = s.branches := (hkeep hinner).trans (enter_branches hstep)
    obtain ⟨branch, hbranch, hindex, hscan⟩ := ih (hbranches ▸ hlevel) hne
    have hpos : 0 < used := by
      obtain ⟨_, _, _, _, -, -, rfl, -⟩ := step_eq_enter hstep
      exact Nat.two_pos
    obtain ⟨taken, htaken, hlength⟩ := append_branch first hpos hbranch hne
    refine ⟨taken ++ branch, htaken, ?_, fun hbalanced => ?_⟩
    · rw [hindex, List.length_append, hlength, Nat.add_assoc]
    · obtain ⟨hhere, hmore⟩ := List.forall_mem_cons.mp hbalanced
      rw [deadLength?_enter hstep hhere, hscan hmore, List.length_append, hlength,
        Nat.add_comm used]
      rfl

end GoesThrough

end Through

/-! ## 4. Live and dead -/

/-- A test whose expression has a value takes its operands and starts a branch, live or dead. -/
theorem step_ifTest {around : Surroundings σ} {pass : Pass} (path : List Bytes) (base : Nat)
    {index : Nat} {s : PassState σ} {negated live : Bool}
    (hid : Directive.ofId? id = some (.ifTest negated false))
    (hvalue : (evaluate (s.scope around pass) (index + 1) rest).value = .ok (live ^^ negated)) :
    ∃ mask, step around pass path base index (.lit id) rest s
      = branchStep (.lit id :: rest) (((Directive.ifTest negated false).operands rest).length + 1)
        live
          (s.push ⟨false, live, false, mask, index⟩) := by
  obtain ⟨read, more, hrest, hread, -, hsign, mask, heq⟩ := operands_of_evaluate hvalue
  have hops : (Directive.ifTest negated false).operands rest = read := hread
  have heval := heq (index + 1) more hsign
  rw [← hrest] at heval
  have hsize : index + 1 + read.length - index = read.length + 1 := by omega
  have hruling : (if negated then !(live ^^ negated) else (live ^^ negated)) = live := by
    cases negated <;> cases live <;> rfl
  refine ⟨mask, ?_⟩
  rw [hops]
  simp only [step, hid, directiveStep, ifTestStep, List.tail_cons, heval, hsize, hruling,
    Bool.and_false, Bool.false_eq_true, if_false]

/-- A pass that succeeds goes on from wherever it comes to, and leaves none of its conditionals
open. -/
theorem passes_onward {around : Surroundings σ} {pass : Pass} {levels : Nat} {path : List Bytes}
    {name : Bytes} {tokens out before : List Token} {s s' : PassState σ} {c : Cursor σ}
    (hprocess : process around pass (levels + 1) path name tokens s = (.ok out, s'))
    (hcomes : Passes around pass (entering around pass levels path) path s.branches.length
      ⟨0, tokens, s⟩ before c) :
    s'.branches.length ≤ c.state.branches.length ∧
      ∃ i more, Passes around pass (entering around pass levels path) path s.branches.length c more
        ⟨i, [], s'⟩ := by
  obtain ⟨hbase, -⟩ := hcomes.outer_eq (fun hinner => process_branches hinner) (Nat.le_refl _)
  have hwalk := (hcomes.walk_eq name).symm.trans hprocess
  obtain ⟨more, hmore, -⟩ := PassResult.prepend_eq_ok hwalk
  obtain ⟨hend, i, honward⟩ := passes_of_walk hmore
  exact ⟨Nat.le_trans hend hbase, i, more, honward⟩

/-- **A dead branch ends where it would when live**, if the operands of the directives in it are
balanced.  Let a file be gone through without an error, and let the pass come to a test that holds.
Then it goes through the branch behind the test, up to a directive that goes on with the
conditional.  If the operands of the directives that it comes to on this way are balanced, every
other pass that comes to the test, in a state in which it does not hold, hides the test with the
same branch and goes on at the same directive. -/
theorem dead_branch_ends_alike {around : Surroundings σ} {pass : Pass} {levels : Nat}
    {path : List Bytes} {name : Bytes} {tokens out before rest : List Token}
    {s₀ s s' : PassState σ} {index : Nat} {id : TokenId} {negated : Bool}
    (hprocess : process around pass (levels + 1) path name tokens s₀ = (.ok out, s'))
    (hcomes : Passes around pass (entering around pass levels path) path s₀.branches.length
      ⟨0, tokens, s₀⟩ before ⟨index, .lit id :: rest, s⟩)
    (hid : Directive.ofId? id = some (.ifTest negated false))
    (hlive : (evaluate (s.scope around pass) (index + 1) rest).value = .ok !negated) :
    let ops := (Directive.ifTest negated false).operands rest
    ∃ s₁, step around pass path s₀.branches.length index (.lit id) rest s
        = .next (ops.length + 1) (hide (.lit id :: ops)) s₁ ∧
      let Through := GoesThrough around pass (entering around pass levels path) path
        s₀.branches.length (s.branches.length + 1)
        ⟨index + (ops.length + 1), rest.drop ops.length, s₁⟩
      (∃ texts c, Through texts c) ∧
      ∀ texts c, Through texts c →
        ∃ branch, rest = ops ++ (branch ++ c.tokens) ∧
          c.index = index + (ops.length + 1) + branch.length ∧
          ((∀ text ∈ texts, OperandsBalanced text) →
            ∀ (τ : Type) (around' : Surroundings τ) (pass' : Pass) (path' : List Bytes)
              (base' index' : Nat) (t : PassState τ),
              (evaluate (t.scope around' pass') (index' + 1) rest).value = .ok negated →
              ∃ mask, step around' pass' path' base' index' (.lit id) rest t
                = .next (ops.length + 1 + branch.length) (hide (.lit id :: (ops ++ branch)))
                    (t.push ⟨false, false, false, mask, index'⟩)) := by
  intro ops
  have hkeep : ∀ {file inside inner} {s s' : PassState σ},
      entering around pass levels path file inside s = (.ok inner, s') → s'.branches = s.branches :=
    fun hinner => process_branches hinner
  have hrest : rest = ops ++ rest.drop ops.length :=
    (List.prefix_iff_eq_append.mp ((Directive.ifTest negated false).operands_isPrefix rest)).symm
  obtain ⟨mask, hstep⟩ := step_ifTest path s₀.branches.length hid
    ((Bool.true_xor negated).symm ▸ hlive)
  have htake : (Token.lit id :: rest).take (ops.length + 1) = .lit id :: ops := by
    rw [hrest, List.take_succ_cons, List.take_left]
  rw [branchStep, if_pos rfl, htake] at hstep
  have hdepth : (s.push ⟨false, true, false, mask, index⟩).branches.length
      = 0 + (s.branches.length + 1) := (Nat.zero_add _).symm
  refine ⟨_, hstep, ?_, ?_⟩
  · obtain ⟨hclosed, i, _, honward⟩ := passes_onward hprocess hcomes
    obtain ⟨_, hbehind⟩ := honward.of_next hstep (Nat.zero_le _)
    exact exists_goesThrough hkeep hbehind hdepth (Nat.lt_succ_of_le hclosed)
  · intro texts c hthrough
    obtain ⟨branch, hbranch, hindex, hscan⟩ := hthrough.exists_branch hkeep hdepth
    dsimp only at hbranch hindex hscan
    rw [hbranch] at hrest hscan
    refine ⟨branch, hrest, hindex, ?_⟩
    intro hbalanced τ around' pass' path' base' index' t hdead
    obtain ⟨mask', hstep'⟩ := step_ifTest path' base' hid ((Bool.false_xor negated).symm ▸ hdead)
    have hfront : Token.lit id :: rest = .lit id :: (ops ++ (branch ++ c.tokens)) :=
      congrArg (Token.lit id :: ·) hrest
    rw [hfront] at hstep'
    exact ⟨mask', hstep'.trans (branchStep_dead _ _ (hscan hbalanced))⟩

/-- The way through a branch with a text and with a conditional of which it takes the second
branch. -/
theorem goesThrough_nested :
    let around : Surroundings Unit := ⟨.empty, fun _ => none, none⟩
    let s : PassState Unit := ⟨MacroTable.empty.define 101 ⟨[], 0⟩, .empty, .empty, [], [], [], ()⟩
    let branch : List Token := [.lit TokenId.warning, .lit TokenId.quote, .lit 102,
      .lit TokenId.quote, .lit TokenId.ifdef, .lit 103, .lit 104, .lit TokenId.elseBranch, .lit 105,
      .lit TokenId.endif]
    let after : List Token := [.lit TokenId.elseBranch, .lit 106, .lit TokenId.endif]
    ∃ s', GoesThrough around .first (entering around .first 0 []) [] 0 1
      ⟨2, branch ++ after, s.push ⟨false, true, false, 0, 0⟩⟩
      [branch ++ after, branch.drop 4 ++ after, branch.drop 7 ++ after, branch.drop 8 ++ after,
        branch.drop 9 ++ after] ⟨12, after, s'⟩ := by
  intro around s branch after
  let s₁ := s.push ⟨false, true, false, 0, 0⟩
  let s₂ := s₁.warn (textArgument s₁ (branch.tail ++ after)).1
  have hwarning : step around .first [] 0 2 (.lit TokenId.warning) (branch.tail ++ after) s₁
      = .next 4 (hide (branch.take 4)) s₂ := by cbv
  have hinner : step around .first [] 0 6 (.lit TokenId.ifdef) (branch.drop 5 ++ after) s₂
      = .next 3 (hide ((branch.drop 4).take 3)) (s₂.push ⟨false, false, false, 0, 6⟩) := by cbv
  have helse : step around .first [] 0 9 (.lit TokenId.elseBranch) (branch.drop 8 ++ after)
      (s₂.push ⟨false, false, false, 0, 6⟩)
        = .next 1 (hide [.lit TokenId.elseBranch]) (s₂.push ⟨false, true, false, 0, 6⟩) := by cbv
  have hword : step around .first [] 0 10 (.lit 105) (branch.drop 9 ++ after)
      (s₂.push ⟨false, true, false, 0, 6⟩)
        = .next 1 [.lit 105] (s₂.push ⟨false, true, false, 0, 6⟩) := by cbv
  have hendif : step around .first [] 0 11 (.lit TokenId.endif) after
      (s₂.push ⟨false, true, false, 0, 6⟩) = .next 1 (hide [.lit TokenId.endif]) s₂ := by cbv
  exact ⟨s₂, .next rfl hwarning (.next rfl hinner (.next rfl helse (.next rfl hword
    (.next rfl hendif (.ends rfl)))))⟩

/-- The branch behind a test for a macro. -/
theorem dead_branch_ends_alike_nested :
    let around : Surroundings Unit := ⟨.empty, fun _ => none, none⟩
    let bare : PassState Unit := ⟨.empty, .empty, .empty, [], [], [], ()⟩
    let s : PassState Unit := { bare with early := MacroTable.empty.define 101 ⟨[], 0⟩ }
    let branch : List Token := [.lit TokenId.warning, .lit TokenId.quote, .lit 102,
      .lit TokenId.quote, .lit TokenId.ifdef, .lit 103, .lit 104, .lit TokenId.elseBranch, .lit 105,
      .lit TokenId.endif]
    let after : List Token := [.lit TokenId.elseBranch, .lit 106, .lit TokenId.endif]
    let rest : List Token := Token.lit 101 :: (branch ++ after)
    (∃ out s', process around .first 1 [] [] (.lit TokenId.ifTest :: rest) s = (.ok out, s')) ∧
      (evaluate (s.scope around .first) 1 rest).value = .ok true ∧
      (evaluate (bare.scope around .first) 1 rest).value = .ok false ∧
      ∃ mask, step around .first [] 0 0 (.lit TokenId.ifTest) rest bare
        = .next 12 (hide (.lit TokenId.ifTest :: .lit 101 :: branch))
            (bare.push ⟨false, false, false, mask, 0⟩) := by
  intro around bare s branch after rest
  have hrun : ∃ out s', process around .first 1 [] [] (.lit TokenId.ifTest :: rest) s
      = (.ok out, s') := ⟨_, _, by cbv⟩
  have hlive : (evaluate (s.scope around .first) (0 + 1) rest).value = .ok !false := by cbv
  have hdead : (evaluate (bare.scope around .first) (0 + 1) rest).value = .ok false := by cbv
  have hops : (Directive.ifTest false false).operands rest = [Token.lit 101] := by cbv
  have htest : step around .first [] 0 0 (.lit TokenId.ifTest) rest s
      = .next 2 (hide [.lit TokenId.ifTest, .lit 101]) (s.push ⟨false, true, false, 0, 0⟩) := by cbv
  have hbalanced : ∀ text ∈ [branch ++ after, branch.drop 4 ++ after, branch.drop 7 ++ after,
      branch.drop 8 ++ after, branch.drop 9 ++ after], OperandsBalanced text := by
    have hname : (Directive.ifTest false false).operands (branch.drop 5 ++ after)
        = [Token.lit 103] := by
      cbv
    simp only [List.forall_mem_cons, List.not_mem_nil, false_imp_iff, implies_true, and_true]
    refine ⟨?_, ?_, ?_, ?_, ?_⟩
    · rintro _ ⟨⟩
      exact .word (by decide) (.word (by decide) (.word (by decide) .nil))
    · rintro _ ⟨⟩
      exact hname ▸ .word (by decide) .nil
    · rintro _ ⟨⟩
      exact .nil
    · rintro _ ⟨⟩
    · rintro _ ⟨⟩
      exact .nil
  obtain ⟨out, s', hprocess⟩ := hrun
  obtain ⟨s₁, hstep, -, hends⟩ := dead_branch_ends_alike hprocess (.refl _) rfl hlive
  rw [hops] at hstep hends
  obtain rfl : s.push ⟨false, true, false, 0, 0⟩ = s₁ :=
    (Step.next.inj (htest.symm.trans hstep)).2.2
  obtain ⟨_, hthrough⟩ := goesThrough_nested
  obtain ⟨block, hblock, -, hhides⟩ := hends _ _ hthrough
  obtain rfl : branch = block := List.append_cancel_right (List.cons.inj hblock).2
  obtain ⟨mask, hhidden⟩ := hhides hbalanced Unit around .first [] 0 0 bare hdead
  exact ⟨⟨out, s', hprocess⟩, hlive, hdead, mask, hhidden⟩

/-- **A dead branch can end in a text.**  The text of the warning is the end of a conditional.  When
the test holds, the warning takes it and the branch ends at the last token.  When it does not hold,
the branch ends in the text, and the last token has no conditional to end. -/
theorem dead_branch_ends_in_text :
    let around : Surroundings Unit := ⟨.empty, fun _ => none, none⟩
    let bare : PassState Unit := ⟨.empty, .empty, .empty, [], [], [], ()⟩
    let s : PassState Unit := { bare with early := MacroTable.empty.define 101 ⟨[], 0⟩ }
    let tokens : List Token := [.lit TokenId.ifTest, .lit 101, .lit TokenId.warning,
      .lit TokenId.quote, .lit TokenId.endif, .lit TokenId.quote, .lit 102, .lit TokenId.endif]
    (∃ out s', process around .first 1 [] [] tokens s = (.ok out, s')) ∧
      (∃ s₁ s₂ texts, step around .first [] 0 0 (.lit TokenId.ifTest) tokens.tail s
          = .next 2 (hide (tokens.take 2)) s₁ ∧
        GoesThrough around .first (entering around .first 0 []) [] 0 1 ⟨2, tokens.drop 2, s₁⟩ texts
          ⟨7, tokens.drop 7, s₂⟩) ∧
      (∃ t, step around .first [] 0 0 (.lit TokenId.ifTest) tokens.tail bare
        = .next 4 (hide (tokens.take 4)) t) ∧
      ∃ e, (process around .first 1 [] [] tokens bare).1 = .error e ∧
        e.cause = .noMatchingIf (Bytes.ofString "#endif") := by
  intro around bare s tokens
  let s₁ := s.push ⟨false, true, false, 0, 0⟩
  let s₂ := s₁.warn (textArgument s₁ (tokens.drop 3)).1
  have htest : step around .first [] 0 0 (.lit TokenId.ifTest) tokens.tail s
      = .next 2 (hide (tokens.take 2)) s₁ := by cbv
  have hwarning : step around .first [] 0 2 (.lit TokenId.warning) (tokens.drop 3) s₁
      = .next 4 (hide ((tokens.drop 2).take 4)) s₂ := by cbv
  have hword : step around .first [] 0 6 (.lit 102) (tokens.drop 7) s₂
      = .next 1 [.lit 102] s₂ := by cbv
  exact ⟨⟨_, _, by cbv⟩, ⟨s₁, s₂, _, htest, .next rfl hwarning (.next rfl hword (.ends rfl))⟩,
    ⟨_, by cbv⟩, _, by cbv, by cbv⟩

end EffectScript
