import Mathlib
import EffectScript.Proofs.Passage
import EffectScript.Proofs.Places

/-!
# What stands in dead text

A branch that is not taken is hidden from its directive up to the one that ends it.  What stands
there may be anything that the scan for that end goes over: conditionals that are balanced, and
otherwise any units at all (`Balanced`).  Another such block in its place changes nothing that the
run shows: neither whether it succeeds, nor its visible output, its macros or its reports.

Two things can spoil that, and both are marks in the wrong place.  A mark among the operands of the
directive makes the hidden unit ill formed, and a mark at the end of what was put out before hides
the first mark of that unit (`endsPending`).

Main statement: `untaken_block_inert`.
-/

namespace EffectScript

variable {σ : Type}

/-! ## 1. Balanced blocks -/

/-- A text of units in which every conditional that is opened is closed, and `level` more are. -/
inductive Balanced : Nat → List Token → Prop
  | nil : Balanced 0 []
  | word {level : Nat} {id : TokenId} {rest : List Token}
      (hid : ∀ d ∈ Directive.ofId? id, d.branches = false ∧ d ≠ .endif)
      (h : Balanced level rest) : Balanced level (.lit id :: rest)
  | one {level : Nat} (id : TokenId) {rest : List Token} (h : Balanced level rest) :
      Balanced level (.skipOne :: .lit id :: rest)
  | region {level : Nat} {inner rest : List Token} (hinner : WellMarked inner)
      (h : Balanced level rest) : Balanced level (.skipOpen :: (inner ++ .skipClose :: rest))
  | opens {level : Nat} {id : TokenId} {d : Directive} {rest : List Token}
      (hid : Directive.ofId? id = some d) (hd : d.opens) (h : Balanced (level + 1) rest) :
      Balanced level (.lit id :: rest)
  | divides {level : Nat} {id : TokenId} {d : Directive} {rest : List Token}
      (hid : Directive.ofId? id = some d) (hd : d.divides) (h : Balanced (level + 1) rest) :
      Balanced (level + 1) (.lit id :: rest)
  | closes {level : Nat} {rest : List Token} (h : Balanced level rest) :
      Balanced (level + 1) (.lit TokenId.endif :: rest)

theorem deadLength?_passed {level : Nat} {id : TokenId} {d : Directive} {rest : List Token}
    (hid : Directive.ofId? id = some d) (hd : d.branches = false) (hend : d ≠ .endif) :
    deadLength? level (.lit id :: rest) = (deadLength? level rest).map (· + 1) := by
  rw [Directive.branches, Bool.or_eq_false_iff] at hd
  rw [deadLength?.eq_def]
  simp [hid, hd, hend]

namespace Balanced

theorem wellMarked {level : Nat} {block : List Token} (h : Balanced level block) :
    WellMarked block := by
  induction h with
  | nil => exact .nil
  | word _ _ ih => exact .lit _ ih
  | one id _ ih => exact .one id ih
  | region hinner _ ih => exact .region hinner ih
  | opens _ _ _ ih => exact .lit _ ih
  | divides _ _ _ ih => exact .lit _ ih
  | closes _ ih => exact .lit _ ih

/-- **The scan for the end of dead text goes over a balanced block**, inside any number of
conditionals. -/
theorem deadLength?_inside {level : Nat} {block : List Token} (h : Balanced level block)
    (depth : Nat) (after : List Token) :
    deadLength? (level + depth) (block ++ after)
      = (deadLength? depth after).map (· + block.length) := by
  have hmore : ∀ n m, ((deadLength? depth after).map (· + n)).map (· + m)
      = (deadLength? depth after).map (· + (n + m)) := by
    intro n m
    rw [Option.map_map]
    congr 1
    funext k
    exact Nat.add_assoc k n m
  induction h with
  | nil => simp
  | @word level id rest hid _ ih =>
    have hgo : deadLength? (level + depth) (.lit id :: (rest ++ after))
        = (deadLength? (level + depth) (rest ++ after)).map (· + 1) := by
      cases hd : Directive.ofId? id with
      | none => exact deadLength?_quiet hd
      | some d => exact deadLength?_passed hd (hid d hd).1 (hid d hd).2
    rw [List.cons_append, hgo, ih, hmore]
    rfl
  | one id _ ih =>
    rw [List.cons_append, List.cons_append, deadLength?_one, ih, hmore]
    rfl
  | region hinner _ ih =>
    rw [List.cons_append, List.append_assoc, List.cons_append,
      deadLength?_region _ hinner, ih, hmore]
    simp only [List.length_cons, List.length_append]
    congr 1
    funext k
    omega
  | opens hid hd _ ih =>
    rw [Nat.succ_add] at ih
    rw [List.cons_append, deadLength?_opens hid hd, ih, hmore]
    rfl
  | divides hid hd _ ih =>
    rw [Nat.succ_add] at ih ⊢
    rw [List.cons_append, deadLength?_divides hid hd, ih, hmore]
    rfl
  | closes _ ih =>
    rw [Nat.succ_add, List.cons_append, deadLength?_endif, ih, hmore]
    rfl

theorem deadLength?_append {level : Nat} {block : List Token} (h : Balanced level block)
    (after : List Token) :
    deadLength? level (block ++ after) = (deadLength? 0 after).map (· + block.length) :=
  h.deadLength?_inside 0 after

end Balanced

/-- Dead text ends at a directive, and so at no sign. -/
theorem startsWithSign_of_deadLength? {after : List Token} (h : deadLength? 0 after = some 0) :
    startsWithSign after = false := by
  cases after with
  | nil => rfl
  | cons t rest =>
    cases t with
    | lit id =>
      have hne : ∀ sign, Directive.ofId? sign = none → id ≠ sign := by
        rintro sign hsign rfl
        rw [deadLength?_quiet hsign] at h
        obtain ⟨n, -, hn⟩ := Option.map_eq_some_iff.mp h
        cases hn
      have hor := hne TokenId.orSign rfl
      have hand := hne TokenId.andSign rfl
      simp [startsWithSign, hor, hand]
    | _ => rfl

/-! ## 2. What is visible around a hidden unit -/

/-- Whether a text ends with a mark that hides the next token. -/
def endsPending : List Token → Bool
  | [] => false
  | [.skipOne] => true
  | .skipOne :: _ :: rest => endsPending rest
  | _ :: rest => endsPending rest

/-- The visible tokens of a text inside `depth` open regions. -/
def visibleAt : Nat → List Token → List TokenId
  | 0, tokens => visible tokens
  | depth + 1, tokens => visible (tokens.drop (regionLength depth tokens))

theorem visibleAt_one (depth : Nat) (t : Token) (tokens : List Token) :
    visibleAt depth (.skipOne :: t :: tokens) = visibleAt depth tokens := by
  cases depth with
  | zero => exact visible_mark rfl _
  | succ depth => rfl

/-- Every other token is seen or not, and opens or closes a region or not, whatever follows. -/
theorem visibleAt_cons (depth : Nat) {t : Token} (ht : t ≠ .skipOne) :
    ∃ ids depth', ∀ tokens, visibleAt depth (t :: tokens) = ids ++ visibleAt depth' tokens := by
  cases t with
  | skipOne => exact absurd rfl ht
  | lit id =>
    cases depth with
    | zero =>
      refine ⟨[id], 0, fun tokens => ?_⟩
      rw [visibleAt, visible]
      rfl
    | succ depth => exact ⟨[], depth + 1, fun tokens => rfl⟩
  | skipOpen =>
    refine ⟨[], depth + 1, fun tokens => ?_⟩
    cases depth with
    | zero => exact visible_mark rfl _
    | succ depth => rfl
  | skipClose =>
    cases depth with
    | zero => exact ⟨[], 0, fun tokens => visible_mark rfl _⟩
    | succ depth =>
      refine ⟨[], depth, fun tokens => ?_⟩
      cases depth <;> rfl

/-- A text that is not pending is seen as it is, whatever follows. -/
theorem visibleAt_append (depth : Nat) {before : List Token} (h : endsPending before = false) :
    ∃ ids depth', ∀ tokens, visibleAt depth (before ++ tokens)
      = ids ++ visibleAt depth' tokens := by
  fun_induction endsPending before generalizing depth with
  | case1 => exact ⟨[], depth, fun _ => rfl⟩
  | case2 => cases h
  | case3 t rest ih =>
    obtain ⟨ids, depth', hrest⟩ := ih depth h
    exact ⟨ids, depth', fun tokens => (visibleAt_one depth t _).trans (hrest tokens)⟩
  | case4 t rest hlast hpair ih =>
    have ht : t ≠ .skipOne := by
      rintro rfl
      cases rest with
      | nil => exact hlast rfl rfl
      | cons u rest => exact hpair u rest rfl rfl
    obtain ⟨ids, depth₁, hfirst⟩ := visibleAt_cons depth ht
    obtain ⟨ids', depth', hrest⟩ := ih depth₁ h
    refine ⟨ids ++ ids', depth', fun tokens => ?_⟩
    rw [List.cons_append, hfirst, hrest, List.append_assoc]

theorem visibleAt_hide (depth : Nat) {text : List Token} (h : WellMarked text)
    (tokens : List Token) : visibleAt depth (hide text ++ tokens) = visibleAt depth tokens := by
  cases depth with
  | zero => exact visible_hide_append h tokens
  | succ depth =>
    rw [visibleAt, visibleAt, regionLength_append h.hide, List.drop_length_add_append]

/-- **One hidden unit is as good as another**, behind a text that is not pending. -/
theorem visible_exchange {before : List Token} (h : endsPending before = false)
    {text text' : List Token} (htext : WellMarked text) (htext' : WellMarked text')
    (after : List Token) :
    visible (before ++ (hide text ++ after)) = visible (before ++ (hide text' ++ after)) := by
  obtain ⟨ids, depth, hids⟩ := visibleAt_append 0 h
  calc visible (before ++ (hide text ++ after))
      = ids ++ visibleAt depth (hide text ++ after) := hids _
    _ = ids ++ visibleAt depth (hide text' ++ after) := by
        rw [visibleAt_hide depth htext, visibleAt_hide depth htext']
    _ = visible (before ++ (hide text' ++ after)) := (hids _).symm

/-! ## 3. Branches that are not taken -/

section Untaken

variable {around : Surroundings σ} {pass : Pass} {path : List Bytes} {base index : Nat}
  {id : TokenId} {d : Directive} {ops block after emitted : List Token} {s s' : PassState σ}

/-- A branch that is not taken is hidden with the directive and its operands. -/
theorem branchStep_dead (first : Token) (s : PassState σ)
    (h : deadLength? 0 (block ++ after) = some block.length) :
    branchStep (first :: (ops ++ (block ++ after))) (ops.length + 1) false s
      = .next (ops.length + 1 + block.length) (hide (first :: (ops ++ block))) s := by
  have htake : (first :: (ops ++ (block ++ after))).take (ops.length + 1 + block.length)
      = first :: (ops ++ block) := by
    rw [← List.append_assoc, ← List.cons_append]
    refine List.take_left' ?_
    rw [List.length_cons, List.length_append]
    omega
  rw [branchStep, if_neg Bool.false_ne_true, drop_operands, h]
  simp only [htake]

/-- A directive that hides a block behind its operands was not taken.  The block ends where dead
text does, and every other balanced block in front of such a place is hidden too. -/
theorem untaken_anywhere (hid : Directive.ofId? id = some d) (hd : d.branches)
    (hops : d.operands (ops ++ (block ++ after)) = ops)
    (hstep : step around pass path base index (.lit id) (ops ++ (block ++ after)) s
      = .next (ops.length + 1 + block.length) emitted s')
    (hblock : Balanced 0 block) (hne : block ≠ []) :
    deadLength? 0 after = some 0 ∧
      ∀ other after', Balanced 0 other → (d.isTest → startsWithSign other = false) →
        deadLength? 0 after' = some 0 →
        step around pass path base index (.lit id) (ops ++ (other ++ after')) s
          = .next (ops.length + 1 + other.length) (hide (.lit id :: (ops ++ other))) s' := by
  rw [step_directive hid] at hstep
  obtain ⟨more, hrest, -, htest, r₀, hrule⟩ := ruled_of_next hd hstep
  rw [hops] at hrest htest hrule
  obtain rfl := List.append_cancel_left hrest
  obtain ⟨r, -, -, hgo⟩ := hrule index s (.refl s)
  have hblockStep : directiveStep around pass path base index
      (.lit id :: (ops ++ (block ++ after))) s d = _ := hgo _ fun ht => (htest ht).1
  rw [hstep] at hblockStep
  have hlength : 0 < block.length := List.length_pos_iff.mpr hne
  cases r with
  | leave s₁ =>
    injection hblockStep with hused
    omega
  | branch live s₁ =>
    cases live with
    | true =>
      injection hblockStep with hused
      omega
    | false =>
      obtain ⟨rfl, -, hused | ⟨dead, hdead, hused⟩⟩ := branchStep_eq_next hblockStep.symm
      · omega
      · rw [drop_operands, hblock.deadLength?_append] at hdead
        obtain ⟨n, hn, rfl⟩ := Option.map_eq_some_iff.mp hdead
        obtain rfl : n = 0 := by omega
        refine ⟨hn, fun other after' hother hsign hafter => ?_⟩
        have hotherStep : directiveStep around pass path base index
            (.lit id :: (ops ++ (other ++ after'))) s d = _ :=
          hgo (other ++ after') fun ht =>
            startsWithSign_append (hsign ht) (startsWithSign_of_deadLength? hafter)
        have hscan : deadLength? 0 (other ++ after') = some other.length := by
          rw [hother.deadLength?_append, hafter, Option.map_some, Nat.zero_add]
        rw [step_directive hid, hotherStep, Ruling.toStep, branchStep_dead _ _ hscan]

/-- It hides every other balanced block in its place. -/
theorem step_untaken (hid : Directive.ofId? id = some d) (hd : d.branches)
    (hops : d.operands (ops ++ (block ++ after)) = ops)
    (hstep : step around pass path base index (.lit id) (ops ++ (block ++ after)) s
      = .next (ops.length + 1 + block.length) emitted s')
    (hblock : Balanced 0 block) (hne : block ≠ []) {other : List Token} (hother : Balanced 0 other)
    (hsign : startsWithSign other = false) :
    step around pass path base index (.lit id) (ops ++ (other ++ after)) s
      = .next (ops.length + 1 + other.length) (hide (.lit id :: (ops ++ other))) s' := by
  obtain ⟨hend, huntaken⟩ := untaken_anywhere hid hd hops hstep hblock hne
  exact huntaken other after hother (fun _ => hsign) hend

/-- **A run over a branch that is not taken** goes on behind it, from a state that has nothing to do
with what stands there. -/
theorem process_untaken {levels : Nat} (name : Bytes) {s₁ s₂ : PassState σ}
    {pre before : List Token} (hid : Directive.ofId? id = some d) (hd : d.branches)
    (hbefore : Passes around pass (entering around pass levels path) path s.branches.length
      ⟨0, pre ++ .lit id :: (ops ++ (block ++ after)), s⟩ before
      ⟨index, .lit id :: (ops ++ (block ++ after)), s₁⟩)
    (hops : d.operands (ops ++ (block ++ after)) = ops)
    (hstep : step around pass path s.branches.length index (.lit id) (ops ++ (block ++ after)) s₁
      = .next (ops.length + 1 + block.length) emitted s₂)
    (hblock : Balanced 0 block) (hne : block ≠ []) {other : List Token} (hother : Balanced 0 other)
    (hsign : startsWithSign other = false) :
    process around pass (levels + 1) path name (pre ++ .lit id :: (ops ++ (other ++ after))) s
      = (walk around pass (entering around pass levels path) path name s.branches.length
          (index + (ops.length + 1 + other.length)) after s₂).prepend
        (before ++ hide (.lit id :: (ops ++ other))) := by
  have huntaken := step_untaken hid hd hops hstep hblock hne hother hsign
  have hdrop : (ops ++ (other ++ after)).drop (ops.length + 1 + other.length - 1) = after := by
    rw [← List.append_assoc]
    refine List.drop_left' ?_
    rw [List.length_append]
    omega
  have hwalk := (hbefore.of_tail rfl rfl (ops ++ (other ++ after))).walk_eq name
  rw [walk, huntaken] at hwalk
  dsimp only at hwalk
  rw [hdrop, ← PassResult.prepend_append] at hwalk
  exact hwalk

end Untaken

/-- **What stands in a branch that is not taken is inert.**  Let a pass over a file come to a
directive behind `pre`, put out `before` on the way, and let the directive start a branch that is
not taken, so that its step hides `block` too.  With any other balanced block in its place, the
empty one too, the run succeeds or fails alike, and when it succeeds it has the same visible output,
the same macros and the same reports. -/
theorem untaken_block_inert {around : Surroundings σ} {pass : Pass} {levels : Nat}
    {path : List Bytes} (name : Bytes) {s s₁ s₂ : PassState σ} {index : Nat} {id : TokenId}
    {d : Directive} {pre ops block other after before emitted : List Token}
    (hid : Directive.ofId? id = some d) (hd : d.branches)
    (hbefore : Passes around pass (entering around pass levels path) path s.branches.length
      ⟨0, pre ++ .lit id :: (ops ++ (block ++ after)), s⟩ before
      ⟨index, .lit id :: (ops ++ (block ++ after)), s₁⟩)
    (hpending : endsPending before = false)
    (hops : d.operands (ops ++ (block ++ after)) = ops) (hlits : ∀ t ∈ ops, t.isLit)
    (hstep : step around pass path s.branches.length index (.lit id) (ops ++ (block ++ after)) s₁
      = .next (ops.length + 1 + block.length) emitted s₂)
    (hne : block ≠ []) (hblock : Balanced 0 block) (hsign : startsWithSign block = false)
    (hother : Balanced 0 other) (hsign' : startsWithSign other = false) :
    let run := fun text =>
      process around pass (levels + 1) path name (pre ++ .lit id :: (ops ++ (text ++ after))) s
    ((∃ out, (run block).1 = .ok out) ↔ ∃ out, (run other).1 = .ok out) ∧
      ∀ out out', (run block).1 = .ok out → (run other).1 = .ok out' →
        visible out = visible out' ∧ (run block).2.early = (run other).2.early ∧
          (run block).2.late = (run other).2.late ∧ (run block).2.log = (run other).2.log ∧
          (run block).2.env = (run other).2.env := by
  intro run
  let onward := fun i =>
    walk around pass (entering around pass levels path) path name s.branches.length i after s₂
  have hrun : ∀ text, Balanced 0 text → startsWithSign text = false →
      run text = (onward (index + (ops.length + 1 + text.length))).prepend
        (before ++ hide (.lit id :: (ops ++ text))) := fun text htext hs =>
    process_untaken name hid hd hbefore hops hstep hblock hne htext hs
  have hmarked : ∀ text, Balanced 0 text → WellMarked (.lit id :: (ops ++ text)) :=
    fun text htext => .lit id ((wellMarked_of_lits hlits).append htext.wellMarked)
  -- Behind the block both runs go on from one state, counting from different places.
  have halike : (onward (index + (ops.length + 1 + block.length))).Alike
      (onward (index + (ops.length + 1 + other.length))) :=
    walk_alike (fun file inside _ _ h => process_alike levels (file :: path) file inside h) path
      name s.branches.length _ _ after (.refl s₂)
  rw [hrun block hblock hsign, hrun other hother hsign']
  generalize onward (index + (ops.length + 1 + block.length)) = r at halike
  generalize onward (index + (ops.length + 1 + other.length)) = r' at halike
  cases halike with
  | error e e' t t' =>
    refine ⟨⟨?_, ?_⟩, ?_⟩
    · rintro ⟨_, ⟨⟩⟩
    · rintro ⟨_, ⟨⟩⟩
    · rintro _ _ ⟨⟩
  | ok out ht =>
    obtain ⟨branches, rfl, -⟩ := ht
    refine ⟨⟨fun _ => ⟨_, rfl⟩, fun _ => ⟨_, rfl⟩⟩, ?_⟩
    rintro _ _ ⟨⟩ ⟨⟩
    refine ⟨?_, rfl, rfl, rfl, rfl⟩
    dsimp only
    rw [List.append_assoc, List.append_assoc]
    exact visible_exchange hpending (hmarked block hblock) (hmarked other hother) out

/-- A definition and a conditional without a test, hidden behind a variable that is not set, and in
their place a hidden word. -/
theorem untaken_block_inert_definition :
    let around : Surroundings Unit := ⟨.empty, fun _ => some 0, none⟩
    let s : PassState Unit := ⟨.empty, .empty, .empty, [], [], [], ()⟩
    let block : List Token := [.lit TokenId.define, .lit 102, .lit 103, .lit TokenId.eol,
      .lit TokenId.ifTest, .lit TokenId.elseBranch, .lit TokenId.endif]
    let other : List Token := [.skipOne, .lit 104]
    let run := fun text => process around .first 1 [] []
      ([Token.lit 100] ++ Token.lit 17 ::
        ([Token.lit 101] ++ (text ++ [Token.lit TokenId.endif, .lit 102]))) s
    Balanced 0 block ∧ Balanced 0 other ∧
      (run block).1.map visible = .ok [100, 102] ∧
      ((∃ out, (run block).1 = .ok out) ↔ ∃ out, (run other).1 = .ok out) ∧
      ∀ out out', (run block).1 = .ok out → (run other).1 = .ok out' →
        visible out = visible out' ∧ (run block).2.early = (run other).2.early ∧
          (run block).2.late = (run other).2.late ∧ (run block).2.log = (run other).2.log ∧
          (run block).2.env = (run other).2.env := by
  intro around s block other run
  have hblock : Balanced 0 block :=
    .word (by decide) (.word (by decide) (.word (by decide) (.word (by decide)
      (.opens rfl rfl (.divides rfl rfl (.closes .nil))))))
  have hother : Balanced 0 other := .one 104 .nil
  have hstep : step around .first [] 0 1 (.lit 17)
      ([Token.lit 101] ++ (block ++ [Token.lit TokenId.endif, .lit 102])) s
        = .next 9 (hide (.lit 17 :: .lit 101 :: block))
            { s with branches := [⟨false, false, false, 0, 1⟩] } := by cbv
  have hfirst : step around .first [] 0 0 (.lit 100)
      (Token.lit 17 :: ([Token.lit 101] ++ (block ++ [Token.lit TokenId.endif, .lit 102]))) s
        = .next 1 [.lit 100] s := rfl
  have hbefore : Passes around .first (entering around .first 0 []) [] s.branches.length
      ⟨0, [Token.lit 100] ++ Token.lit 17 ::
        ([Token.lit 101] ++ (block ++ [Token.lit TokenId.endif, .lit 102])), s⟩
      [.lit 100]
      ⟨1, Token.lit 17 :: ([Token.lit 101] ++ (block ++ [Token.lit TokenId.endif, .lit 102])), s⟩ :=
    .next hfirst (.refl _)
  exact ⟨hblock, hother, by simp only [run]; cbv,
    untaken_block_inert [] rfl rfl hbefore rfl rfl (by decide) hstep (by decide) hblock rfl hother
      rfl⟩

/-- **Marks in the wrong place let a block show.**  A mark as the operand of a directive hides the
end of the unit around an empty block, and with it all that follows.  A mark at the end of what was
put out before hides the start of the unit. -/
theorem untaken_block_shows :
    let operand := fun text : List Token =>
      [Token.lit 17, .skipOne] ++ text ++ [Token.lit TokenId.endif, .lit 100]
    let pending := fun text : List Token =>
      [Token.lit TokenId.define, .lit 102, .skipOne, .lit TokenId.eol, .lit 102, .lit 17,
        .lit 103] ++ text ++ [Token.lit TokenId.endif]
    let shown := fun tokens =>
      ((Preprocessor.bare.run 0 tokens .empty ()).result.map visible).toOption
    shown (operand []) = some [] ∧ shown (operand [.lit 101]) = some [100] ∧
      shown (pending []) = some [17, 103] ∧ shown (pending [.lit 101]) = some [17, 103, 101] := by
  refine ⟨?_, ?_, ?_, ?_⟩ <;> cbv

end EffectScript
