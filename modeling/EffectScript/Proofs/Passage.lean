import EffectScript.Proofs.Conservation
import EffectScript.Proofs.Deeds

/-!
# What a step looks at

A step may take many tokens: a hidden unit, a definition, a text, an expression, dead text.  None of
them asks for more than the tokens it takes and the next one.  So a pass that gets over the first
part of a file to a token does the same when something else follows that token.

The relation `Passes` follows a pass through one file, over the files that it includes, as `Leads`
does for a file without any.

Main statements:

* `step_local`: a step is the same in front of another text behind the next token;
* `Passes.of_tail`: so is a passage.
-/

namespace EffectScript

variable {σ : Type}

/-! ## 1. Scans

Each of them stops inside the text `mid` in front of a token `t`, or takes that token too. -/

section Scans

variable {mid tail : List Token} {t : Token}

theorem startsWithSign_local (mid : List Token) (t : Token) (tail tail' : List Token) :
    startsWithSign (mid ++ t :: tail') = startsWithSign (mid ++ t :: tail) := by
  cases mid with
  | nil => cases t <;> rfl
  | cons u mid => cases u <;> rfl

theorem takeWhile_local {p : Token → Bool}
    (h : ((mid ++ t :: tail).takeWhile p).length < mid.length) (tail' : List Token) :
    (mid ++ t :: tail').takeWhile p = (mid ++ t :: tail).takeWhile p := by
  have hstop : (mid.takeWhile p).length ≠ mid.length := by
    intro hall
    rw [List.takeWhile_append, if_pos hall, List.length_append] at h
    omega
  rw [List.takeWhile_append, List.takeWhile_append, if_neg hstop, if_neg hstop]

theorem regionLength_pos (depth : Nat) (t : Token) (rest : List Token) :
    0 < regionLength depth (t :: rest) := by
  cases t with
  | lit id => exact Nat.succ_pos _
  | skipOne => cases rest <;> exact Nat.succ_pos _
  | skipOpen => exact Nat.succ_pos _
  | skipClose => cases depth <;> exact Nat.succ_pos _

theorem regionLength_local {depth : Nat} (h : regionLength depth (mid ++ t :: tail) ≤ mid.length)
    (tail' : List Token) :
    regionLength depth (mid ++ t :: tail') = regionLength depth (mid ++ t :: tail) := by
  fun_induction regionLength depth mid with
  | case1 depth =>
    have hpos := regionLength_pos depth t tail
    rw [List.nil_append, List.length_nil] at h
    omega
  | case2 depth id rest ih =>
    simp only [List.cons_append, regionLength, List.length_cons] at h ⊢
    rw [ih (by omega)]
  | case3 depth => simp [regionLength] at h
  | case4 depth u rest ih =>
    simp only [List.cons_append, regionLength, List.length_cons] at h ⊢
    rw [ih (by omega)]
  | case5 depth rest ih =>
    simp only [List.cons_append, regionLength, List.length_cons] at h ⊢
    rw [ih (by omega)]
  | case6 rest => rfl
  | case7 depth rest ih =>
    simp only [List.cons_append, regionLength, List.length_cons] at h ⊢
    rw [ih (by omega)]

theorem hiddenLength_local {mark : Token}
    (h : hiddenLength (mark :: (mid ++ t :: tail)) ≤ mid.length + 1) (tail' : List Token) :
    hiddenLength (mark :: (mid ++ t :: tail')) = hiddenLength (mark :: (mid ++ t :: tail)) := by
  cases mark with
  | lit id => rfl
  | skipOne => cases mid <;> rfl
  | skipOpen =>
    simp only [hiddenLength] at h ⊢
    rw [regionLength_local (Nat.le_of_succ_le_succ h) tail']
  | skipClose => rfl

theorem deadLength?_local {level dead : Nat} (h : deadLength? level (mid ++ t :: tail) = some dead)
    (hdead : dead ≤ mid.length) (tail' : List Token) :
    deadLength? level (mid ++ t :: tail') = some dead := by
  induction hn : mid.length using Nat.strongRecOn generalizing level mid dead with
  | ind n ih =>
  cases mid with
  | nil =>
    obtain rfl : dead = 0 := Nat.le_zero.mp hdead
    cases ht : t.isLit with
    | true =>
      cases t with
      | lit id =>
        rcases deadLength?_lit level id with hstop | ⟨level', hon⟩
        · exact hstop tail'
        · rw [List.nil_append, hon] at h
          obtain ⟨n, -, hn⟩ := Option.map_eq_some_iff.mp h
          cases hn
      | _ => cases ht
    | false =>
      have hpos := hiddenLength_pos ht tail
      rw [List.nil_append, deadLength?_mark level ht] at h
      obtain ⟨n, -, hn⟩ := Option.map_eq_some_iff.mp h
      omega
  | cons first mid =>
    rw [List.length_cons] at hdead hn
    rw [List.cons_append] at h ⊢
    cases hfirst : first.isLit with
    | true =>
      cases first with
      | lit id =>
        rcases deadLength?_lit level id with hstop | ⟨level', hon⟩
        · rw [hstop] at h ⊢
          exact h
        · rw [hon] at h ⊢
          obtain ⟨dead, hrest, rfl⟩ := Option.map_eq_some_iff.mp h
          rw [ih mid.length (by omega) hrest (by omega) rfl]
          rfl
      | _ => cases hfirst
    | false =>
      rw [deadLength?_mark level hfirst] at h ⊢
      obtain ⟨dead, hrest, rfl⟩ := Option.map_eq_some_iff.mp h
      have hpos := hiddenLength_pos hfirst (mid ++ t :: tail)
      have hle : hiddenLength (first :: (mid ++ t :: tail)) ≤ mid.length + 1 := by omega
      rw [hiddenLength_local hle tail']
      rw [List.drop_append_of_le_length (by omega)] at hrest ⊢
      rw [ih _ (by rw [List.length_drop]; omega) hrest (by rw [List.length_drop]; omega) rfl]
      rfl

/-- Two texts that agree up to a token agree up to every place before it. -/
theorem take_local (first t : Token) (tail tail' : List Token) {used : Nat}
    (h : used ≤ mid.length + 1) :
    (first :: (mid ++ t :: tail')).take used = (first :: (mid ++ t :: tail)).take used := by
  rw [← List.cons_append, ← List.cons_append, List.take_append_of_le_length h,
    List.take_append_of_le_length h]

end Scans

/-! ## 2. Steps -/

section Steps

variable {around : Surroundings σ} {pass : Pass} {path : List Bytes} {base index used : Nat}
  {first t : Token} {mid tail emitted : List Token} {s s' : PassState σ}

theorem drop_operands (first : Token) (ops more : List Token) :
    (first :: (ops ++ more)).drop (ops.length + 1) = more := by
  rw [List.drop_succ_cons, List.drop_left]

theorem branchStep_local {ops : List Token} {live : Bool}
    (h : branchStep (first :: (ops ++ (mid ++ t :: tail))) (ops.length + 1) live s
      = .next used emitted s')
    (hused : used ≤ (ops ++ mid).length + 1) (tail' : List Token) :
    branchStep (first :: (ops ++ (mid ++ t :: tail'))) (ops.length + 1) live s
      = .next used emitted s' := by
  have htake : ∀ n ≤ (ops ++ mid).length + 1,
      (first :: (ops ++ (mid ++ t :: tail'))).take n
        = (first :: (ops ++ (mid ++ t :: tail))).take n := by
    intro n hn
    rw [← List.append_assoc, ← List.append_assoc]
    exact take_local first t tail tail' hn
  unfold branchStep at h ⊢
  cases live with
  | true =>
    cases h
    rw [if_pos rfl, htake _ hused]
  | false =>
    rw [if_neg Bool.false_ne_true, drop_operands] at h ⊢
    split at h
    · rename_i dead hdead
      cases h
      have hle : dead ≤ mid.length := by
        rw [List.length_append] at hused
        omega
      rw [deadLength?_local hdead hle tail']
      dsimp only
      rw [htake _ hused]
    · cases h

/-- A directive that starts a branch. -/
theorem branches_local {d : Directive} (hd : d.branches)
    (h : directiveStep around pass path base index (first :: (mid ++ t :: tail)) s d
      = .next used emitted s')
    (hused : used ≤ mid.length + 1) (tail' : List Token) :
    directiveStep around pass path base index (first :: (mid ++ t :: tail')) s d
      = .next used emitted s' := by
  obtain ⟨more, hrest, -, htest, r₀, hrule⟩ := ruled_of_next hd h
  obtain ⟨r, -, -, hgo⟩ := hrule index s (.refl s)
  generalize hops : d.operands (mid ++ t :: tail) = ops at hrest htest hgo
  have hstep : directiveStep around pass path base index (first :: (ops ++ more)) s d = _ :=
    hgo more fun ht => (htest ht).1
  rw [← hrest, h] at hstep
  -- The operands are in front of the token, since the step takes them.
  have hlength : ops.length ≤ mid.length := by
    cases r with
    | leave s₁ =>
      cases hstep
      omega
    | branch live s₁ =>
      obtain ⟨-, -, hsize | ⟨dead, -, hsize⟩⟩ := branchStep_eq_next hstep.symm <;> omega
  obtain ⟨mid', rfl, rfl⟩ : ∃ mid', mid = ops ++ mid' ∧ more = mid' ++ t :: tail := by
    obtain ⟨mid', rfl⟩ : ops <+: mid :=
      List.prefix_of_prefix_length_le ⟨more, hrest.symm⟩ ⟨t :: tail, rfl⟩ hlength
    refine ⟨mid', rfl, ?_⟩
    rw [List.append_assoc] at hrest
    exact (List.append_cancel_left hrest).symm
  have hsign : d.isTest → startsWithSign (mid' ++ t :: tail') = false := by
    intro ht
    rw [startsWithSign_local mid' t tail tail']
    exact (htest ht).1
  have hstep' : directiveStep around pass path base index
      (first :: (ops ++ (mid' ++ t :: tail'))) s d = _ := hgo (mid' ++ t :: tail') hsign
  rw [List.append_assoc] at hstep
  rw [List.append_assoc, hstep']
  cases r with
  | leave s₁ =>
    cases hstep
    simp only [Ruling.toStep]
    rw [← List.append_assoc, ← List.append_assoc, take_local first t tail tail' hused]
  | branch live s₁ => exact branchStep_local hstep.symm hused tail'

/-- What is read up to a mark, and the mark, ends in front of a token: so does what is read. -/
theorem length_lt_of_marked (p : Token → Bool) (mid : List Token) (t : Token) (tail : List Token)
    (h : ((mid ++ t :: tail).takeWhile p).length
        + (if ((mid ++ t :: tail).takeWhile p).length < (mid ++ t :: tail).length then 1 else 0)
      ≤ mid.length) : ((mid ++ t :: tail).takeWhile p).length < mid.length := by
  have hlength : (mid ++ t :: tail).length = mid.length + (tail.length + 1) := List.length_append
  split at h <;> omega

theorem defineStep_local {late : Bool}
    (h : defineStep pass late (first :: (mid ++ t :: tail)) s = .next used emitted s')
    (hused : used ≤ mid.length + 1) (tail' : List Token) :
    defineStep pass late (first :: (mid ++ t :: tail')) s = .next used emitted s' := by
  cases mid with
  | nil =>
    cases t with
    | lit name =>
      rw [List.nil_append, defineStep_eq] at h
      cases h
      rw [defineLength, List.length_nil] at hused
      omega
    | skipOne => cases h
    | skipOpen => cases h
    | skipClose => cases h
  | cons u mid =>
    cases u with
    | lit name =>
      rw [List.cons_append, defineStep_eq] at h ⊢
      cases h
      have hlength := hused
      unfold defineLength bodyOf at hlength
      rw [List.length_cons] at hlength
      have hbody : (bodyOf (mid ++ t :: tail)).length < mid.length :=
        length_lt_of_marked _ mid t tail (by omega)
      have heq : bodyOf (mid ++ t :: tail') = bodyOf (mid ++ t :: tail) :=
        takeWhile_local hbody tail'
      have hlt : ∀ more, (bodyOf (mid ++ t :: tail)).length < (mid ++ more).length := by
        intro more
        rw [List.length_append]
        omega
      have hdefine : defineLength (mid ++ t :: tail') = defineLength (mid ++ t :: tail) := by
        rw [defineLength, defineLength, heq, if_pos (hlt _), if_pos (hlt _)]
      have htake := take_local first t tail tail' hused
      rw [List.cons_append, List.cons_append] at htake
      rw [heq, hdefine, htake]
    | skipOne => cases h
    | skipOpen => cases h
    | skipClose => cases h

theorem textArgument_local (h : (textArgument s (mid ++ t :: tail)).2 ≤ mid.length)
    (tail' : List Token) :
    textArgument s (mid ++ t :: tail') = textArgument s (mid ++ t :: tail) := by
  cases mid with
  | nil =>
    rw [textArgument_snd, List.length_nil] at h
    simp only [List.nil_append, textLength] at h
    split at h <;> omega
  | cons u mid =>
    rw [textArgument_snd] at h
    simp only [List.cons_append, textLength, List.length_cons] at h
    simp only [List.cons_append, textArgument]
    split
    · rename_i hquote
      rw [if_pos hquote] at h
      have hwords := length_lt_of_marked (· != .lit TokenId.quote) mid t tail (by omega)
      have hlt : ∀ more,
          ((mid ++ t :: tail).takeWhile (· != .lit TokenId.quote)).length
            < (mid ++ more).length := by
        intro more
        rw [List.length_append]
        omega
      rw [takeWhile_local hwords tail', if_pos (hlt _), if_pos (hlt _)]
    · rfl

/-- A step that takes a directive and a text. -/
theorem text_local (turn : Bytes → PassState σ)
    (h : Step.next (1 + (textArgument s (mid ++ t :: tail)).2)
      (hide ((first :: (mid ++ t :: tail)).take (1 + (textArgument s (mid ++ t :: tail)).2)))
      (turn (textArgument s (mid ++ t :: tail)).1) = .next used emitted s')
    (hused : used ≤ mid.length + 1) (tail' : List Token) :
    Step.next (1 + (textArgument s (mid ++ t :: tail')).2)
      (hide ((first :: (mid ++ t :: tail')).take (1 + (textArgument s (mid ++ t :: tail')).2)))
      (turn (textArgument s (mid ++ t :: tail')).1) = .next used emitted s' := by
  have hlength : used = 1 + (textArgument s (mid ++ t :: tail)).2 := by
    cases h
    rfl
  have htext : textArgument s (mid ++ t :: tail') = textArgument s (mid ++ t :: tail) :=
    textArgument_local (by omega) tail'
  rw [← h, htext, take_local first t tail tail' (hlength ▸ hused)]

theorem directiveStep_local {d : Directive}
    (h : directiveStep around pass path base index (first :: (mid ++ t :: tail)) s d
      = .next used emitted s')
    (hused : used ≤ mid.length + 1) (tail' : List Token) :
    directiveStep around pass path base index (first :: (mid ++ t :: tail')) s d
      = .next used emitted s' := by
  cases d with
  | includeFile =>
    simp only [directiveStep, includeStep, Step.failWith] at h
    repeat' split at h
    all_goals cases h
  | define late => exact defineStep_local h hused tail'
  | undefine =>
    cases mid <;> exact h
  | ifTest negated late => exact branches_local rfl h hused tail'
  | ifVar negated => exact branches_local rfl h hused tail'
  | elifTest => exact branches_local rfl h hused tail'
  | elifVar => exact branches_local rfl h hused tail'
  | elseBranch => exact branches_local rfl h hused tail'
  | endif => exact h
  | warning => exact text_local s.warn h hused tail'
  | registerEnv => exact text_local (fun text => { s with env := s.env ++ [text] }) h hused tail'

theorem hiddenStep_local {mark : Token}
    (h : hiddenStep pass (hiddenLength (mark :: (mid ++ t :: tail))) (mark :: (mid ++ t :: tail)) s
      = .next used emitted s')
    (hused : used ≤ mid.length + 1) (tail' : List Token) :
    hiddenStep pass (hiddenLength (mark :: (mid ++ t :: tail'))) (mark :: (mid ++ t :: tail')) s
      = .next used emitted s' := by
  have hlength : used = hiddenLength (mark :: (mid ++ t :: tail)) := by
    cases h
    rfl
  rw [← h, hiddenLength_local (hlength ▸ hused) tail', hiddenStep, hiddenStep,
    take_local mark t tail tail' (hlength ▸ hused)]

/-- **A step looks at the tokens it takes and the next one.** -/
theorem step_local
    (h : step around pass path base index first (mid ++ t :: tail) s = .next used emitted s')
    (hused : used ≤ mid.length + 1) (tail' : List Token) :
    step around pass path base index first (mid ++ t :: tail') s = .next used emitted s' := by
  cases first with
  | lit id =>
    cases hid : Directive.ofId? id with
    | none =>
      simp only [step, hid] at h ⊢
      exact h
    | some d =>
      simp only [step, hid] at h ⊢
      exact directiveStep_local h hused tail'
  | skipOne => exact hiddenStep_local h hused tail'
  | skipOpen => exact hiddenStep_local h hused tail'
  | skipClose => exact hiddenStep_local h hused tail'

/-- A step into a file looks at the name of the file. -/
theorem step_enter_local {name : Bytes} {file : List Token}
    (h : step around pass path base index first (mid ++ t :: tail) s
      = .enter used emitted name file s')
    (hused : used ≤ mid.length + 1) (tail' : List Token) :
    step around pass path base index first (mid ++ t :: tail') s
      = .enter used emitted name file s' := by
  obtain ⟨token, after, _, _, rfl, hrest, rfl, -⟩ := step_eq_enter h
  cases mid with
  | nil => simp at hused
  | cons u mid => exact h

end Steps

/-! ## 3. Passages -/

/-- Going through a file that a file of `path` includes, when `levels` more may lie inside it. -/
def entering (around : Surroundings σ) (pass : Pass) (levels : Nat) (path : List Bytes)
    (file : Bytes) (inside : List Token) (s : PassState σ) : PassResult σ :=
  process around pass levels (file :: path) file inside s

/-- A pass goes through a part of a file, and through the files it includes there by `enter`. -/
inductive Passes (around : Surroundings σ) (pass : Pass)
    (enter : Bytes → List Token → PassState σ → PassResult σ) (path : List Bytes) (base : Nat) :
    Cursor σ → List Token → Cursor σ → Prop
  | refl (a : Cursor σ) : Passes around pass enter path base a [] a
  | next {index used : Nat} {first : Token} {rest emitted more : List Token} {s s' : PassState σ}
      {b : Cursor σ}
      (hstep : step around pass path base index first rest s = .next used emitted s')
      (hrest : Passes around pass enter path base ⟨index + used, rest.drop (used - 1), s'⟩ more b) :
      Passes around pass enter path base ⟨index, first :: rest, s⟩ (emitted ++ more) b
  | enter {index used : Nat} {first : Token} {rest emitted file inner more : List Token}
      {name : Bytes} {s s₁ s' : PassState σ} {b : Cursor σ}
      (hstep : step around pass path base index first rest s = .enter used emitted name file s₁)
      (hinner : enter name file s₁ = (.ok inner, s'))
      (hrest : Passes around pass enter path base ⟨index + used, rest.drop (used - 1), s'⟩ more b) :
      Passes around pass enter path base ⟨index, first :: rest, s⟩ (emitted ++ inner ++ more) b

namespace Passes

variable {around : Surroundings σ} {pass : Pass}
  {enter : Bytes → List Token → PassState σ → PassResult σ} {path : List Bytes} {base : Nat}
  {a b : Cursor σ} {out : List Token}

/-- **A passage is a part of `walk`**: what is left to do is done at its end. -/
theorem walk_eq (h : Passes around pass enter path base a out b) (name : Bytes) :
    walk around pass enter path name base a.index a.tokens a.state
      = (walk around pass enter path name base b.index b.tokens b.state).prepend out := by
  induction h with
  | refl a => rw [PassResult.prepend_nil]
  | next hstep hrest ih =>
    rw [walk, PassResult.prepend_append, ← ih]
    simp only [hstep]
  | enter hstep hinner hrest ih =>
    rw [walk, PassResult.prepend_append, ← ih]
    simp only [hstep, hinner]

theorem length_le (h : Passes around pass enter path base a out b) :
    b.tokens.length ≤ a.tokens.length := by
  induction h with
  | refl a => exact Nat.le_refl _
  | next hstep hrest ih =>
    simp only [List.length_drop, List.length_cons] at ih ⊢
    omega
  | enter hstep hinner hrest ih =>
    simp only [List.length_drop, List.length_cons] at ih ⊢
    omega

/-- A step on the way to the token `t` takes tokens in front of it. -/
theorem split_step {used index : Nat} {first t : Token} {rest pre tail : List Token}
    {s : PassState σ}
    (h : Passes around pass enter path base ⟨index, rest.drop (used - 1), s⟩ out b)
    (ha : first :: rest = pre ++ t :: tail) (hb : b.tokens = t :: tail) :
    ∃ mid, pre = first :: mid ∧ rest = mid ++ t :: tail ∧ used ≤ mid.length + 1 := by
  have hlength := h.length_le
  rw [hb, List.length_cons, List.length_drop] at hlength
  cases pre with
  | nil =>
    cases ha
    omega
  | cons u mid =>
    rw [List.cons_append, List.cons.injEq] at ha
    obtain ⟨rfl, rfl⟩ := ha
    refine ⟨mid, rfl, rfl, ?_⟩
    rw [List.length_append, List.length_cons] at hlength
    omega

/-- **A passage up to a token is one whatever follows the token.** -/
theorem of_tail (h : Passes around pass enter path base a out b) {pre tail : List Token} {t : Token}
    (ha : a.tokens = pre ++ t :: tail) (hb : b.tokens = t :: tail) (tail' : List Token) :
    Passes around pass enter path base ⟨a.index, pre ++ t :: tail', a.state⟩ out
      ⟨b.index, t :: tail', b.state⟩ := by
  induction h generalizing pre with
  | refl a =>
    rw [hb] at ha
    obtain rfl : pre = [] := List.self_eq_append_left.mp ha
    exact .refl _
  | next hstep hrest ih =>
    obtain ⟨mid, rfl, rfl, hused⟩ := hrest.split_step ha hb
    rw [List.cons_append]
    refine .next (step_local hstep hused tail') ?_
    rw [List.drop_append_of_le_length (by omega)] at ih ⊢
    exact ih rfl hb
  | enter hstep hinner hrest ih =>
    obtain ⟨mid, rfl, rfl, hused⟩ := hrest.split_step ha hb
    rw [List.cons_append]
    refine .enter (step_enter_local hstep hused tail') hinner ?_
    rw [List.drop_append_of_le_length (by omega)] at ih ⊢
    exact ih rfl hb

end Passes

end EffectScript
