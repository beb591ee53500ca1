import EffectScript.Proofs.Meaning

/-!
# What a pass leaves of a block

A pass turns a text into a text.  Of a block it leaves a block again, its *residue*: words are
replaced, definitions and decided conditionals are hidden, and the text of a branch that is taken
stays.  A conditional that the pass does not decide stays too, with the residues of all its
branches, so the residue of a first pass is a block for the second.

`Block.reduce` gives the residue and the dictionary behind it.  It is not yet said here that a pass
computes it; here are the facts about trees:

* `Block.visible_reduce`: when every conditional is decided, what is visible of the residue is what
  `Block.interpret` gives;
* `Block.reduce_readable`: the residue of a first pass over a block without definitions can be read
  back;
* `Block.interpret_reduce`: what the second pass makes of that residue is the meaning of the block
  over both passes.
-/

namespace EffectScript

/-! ## 1. Residues -/

/-- Words one after the other. -/
def Block.ofOrdinary : List Ordinary → Block
  | [] => .empty
  | w :: words => .seq (.word w) (ofOrdinary words)

/-- Whether a pass leaves a conditional to the other one. -/
def Head.isDeferred (pass : Pass) (head : Head) : Bool := pass = .first && head.isLate

/-- What is left of the arms behind a branch that was taken: hidden branches, one by one. -/
def Arms.leftover : Arms → Block
  | .endif => .hidden [.lit TokenId.endif]
  | .otherwise body =>
    .seq (.hidden (.lit TokenId.elseBranch :: body.render)) (.hidden [.lit TokenId.endif])
  | .elif test body more => .seq (.hidden (test.renderElif ++ body.render)) more.leftover

mutual

/-- What a pass leaves of a block, and the dictionary behind it. -/
def Block.reduce (world : World) (pass : Pass) (inside : Bool) :
    Block → Dictionary → Block × Dictionary
  | .empty, d => (.empty, d)
  | .word w, d => (.ofOrdinary (d.expand pass w), d)
  | .hidden text, d => (.hidden text, d)
  | .define late name body, d =>
    (.hidden (renderDefine (late || pass = .first) name body), d.define inside late name body pass)
  | .seq first second, d =>
    let one := first.reduce world pass inside d
    let two := second.reduce world pass inside one.2
    (.seq one.1 two.1, two.2)
  | .conditional head body arms, d =>
    if head.isDeferred pass then
      let one := body.reduce world pass true d
      let two := arms.defer world pass one.2
      (.conditional head one.1 two.1, two.2)
    else if world.opens pass d head then
      let one := body.reduce world pass true d
      (.seq (.hidden head.render) (.seq one.1 arms.leftover), one.2)
    else
      let rest := arms.reduce world pass d
      (.seq (.hidden (head.render ++ body.render)) rest.1, rest.2)

/-- What a pass leaves of the arms of a conditional of which no branch was taken. -/
def Arms.reduce (world : World) (pass : Pass) : Arms → Dictionary → Block × Dictionary
  | .endif, d => (.hidden [.lit TokenId.endif], d)
  | .otherwise body, d =>
    let one := body.reduce world pass true d
    (.seq (.hidden [.lit TokenId.elseBranch]) (.seq one.1 (.hidden [.lit TokenId.endif])), one.2)
  | .elif test body more, d =>
    if world.holds pass d test then
      let one := body.reduce world pass true d
      (.seq (.hidden test.renderElif) (.seq one.1 more.leftover), one.2)
    else
      let rest := more.reduce world pass d
      (.seq (.hidden (test.renderElif ++ body.render)) rest.1, rest.2)

/-- What a pass leaves of the arms of a conditional that it does not decide. -/
def Arms.defer (world : World) (pass : Pass) : Arms → Dictionary → Arms × Dictionary
  | .endif, d => (.endif, d)
  | .otherwise body, d =>
    let one := body.reduce world pass true d
    (.otherwise one.1, one.2)
  | .elif test body more, d =>
    let one := body.reduce world pass true d
    let two := more.defer world pass one.2
    (.elif test one.1 two.1, two.2)

end

theorem Block.render_ofOrdinary (words : List Ordinary) :
    (Block.ofOrdinary words).render = renderOrdinary words := by
  induction words with
  | nil => rfl
  | cons w words ih =>
    rw [Block.ofOrdinary, Block.render, ih]
    rfl

section Cases

variable {world : World} {pass : Pass} {inside : Bool} {head : Head} {test : Test} {body : Block}
  {arms : Arms} {d : Dictionary}

/-- A conditional that is left to the other pass. -/
theorem Block.reduce_deferred (h : head.isDeferred pass = true) :
    (Block.conditional head body arms).reduce world pass inside d
      = (.conditional head (body.reduce world pass true d).1
          (arms.defer world pass (body.reduce world pass true d).2).1,
        (arms.defer world pass (body.reduce world pass true d).2).2) := by
  rw [Block.reduce, if_pos h]

/-- A conditional whose first branch is taken. -/
theorem Block.reduce_taken (h : head.isDeferred pass = false)
    (hopens : world.opens pass d head = true) :
    (Block.conditional head body arms).reduce world pass inside d
      = (.seq (.hidden head.render) (.seq (body.reduce world pass true d).1 arms.leftover),
        (body.reduce world pass true d).2) := by
  rw [Block.reduce, if_neg (by simp [h]), if_pos hopens]

/-- A conditional whose first branch is dead. -/
theorem Block.reduce_dead (h : head.isDeferred pass = false)
    (hopens : world.opens pass d head = false) :
    (Block.conditional head body arms).reduce world pass inside d
      = (.seq (.hidden (head.render ++ body.render)) (arms.reduce world pass d).1,
        (arms.reduce world pass d).2) := by
  rw [Block.reduce, if_neg (by simp [h]), if_neg (by simp [hopens])]

/-- A further branch that is taken. -/
theorem Arms.reduce_taken (hholds : world.holds pass d test = true) :
    (Arms.elif test body arms).reduce world pass d
      = (.seq (.hidden test.renderElif) (.seq (body.reduce world pass true d).1 arms.leftover),
        (body.reduce world pass true d).2) := by
  rw [Arms.reduce, if_pos hholds]

/-- A further branch that is dead. -/
theorem Arms.reduce_dead (hholds : world.holds pass d test = false) :
    (Arms.elif test body arms).reduce world pass d
      = (.seq (.hidden (test.renderElif ++ body.render)) (arms.reduce world pass d).1,
        (arms.reduce world pass d).2) := by
  rw [Arms.reduce, if_neg (by simp [hholds])]

end Cases

/-! ## 2. What is visible of a residue -/

mutual

/-- Every conditional of a block is for the given pass to decide. -/
def Block.IsDecided (pass : Pass) : Block → Prop
  | .seq first second => first.IsDecided pass ∧ second.IsDecided pass
  | .conditional head body arms =>
    head.isDeferred pass = false ∧ body.IsDecided pass ∧ arms.IsDecided pass
  | _ => True

/-- Every conditional in some arms is for the given pass to decide. -/
def Arms.IsDecided (pass : Pass) : Arms → Prop
  | .endif => True
  | .otherwise body => body.IsDecided pass
  | .elif _ body more => body.IsDecided pass ∧ more.IsDecided pass

end

mutual

/-- The second pass decides everything. -/
theorem Block.isDecided_second : (b : Block) → b.IsDecided .second
  | .empty => trivial
  | .word _ => trivial
  | .hidden _ => trivial
  | .define _ _ _ => trivial
  | .seq first second => ⟨first.isDecided_second, second.isDecided_second⟩
  | .conditional _ body arms => ⟨rfl, body.isDecided_second, arms.isDecided_second⟩

theorem Arms.isDecided_second : (arms : Arms) → arms.IsDecided .second
  | .endif => trivial
  | .otherwise body => body.isDecided_second
  | .elif _ body more => ⟨body.isDecided_second, more.isDecided_second⟩

end

/-- The ids of words. -/
def idsOf (words : List Ordinary) : List TokenId := words.map Ordinary.id

theorem visible_renderOrdinary (words : List Ordinary) (k : List Token) :
    visible (renderOrdinary words ++ k) = idsOf words ++ visible k := by
  induction words with
  | nil => rfl
  | cons w words ih =>
    have hcons : renderOrdinary (w :: words) ++ k = .lit w.id :: (renderOrdinary words ++ k) := rfl
    rw [hcons, visible, ih]
    rfl

/-- Text between hidden units is all that is visible of them. -/
theorem visible_hide_around {xs : List Token} (hx : WellMarked xs) {out : List TokenId}
    {ys zs k : List Token} (hys : ∀ k, visible (ys ++ k) = out ++ visible k)
    (hzs : visible (zs ++ k) = visible k) :
    visible (hide xs ++ (ys ++ zs) ++ k) = out ++ visible k := by
  rw [List.append_assoc, visible_hide_append hx, List.append_assoc, hys, hzs]

/-- Nothing is visible of the arms behind a branch that was taken. -/
theorem Arms.visible_leftover : (arms : Arms) → arms.Readable → ∀ k : List Token,
    visible (arms.leftover.render ++ k) = visible k
  | .endif, _, k => visible_hide_append (.lit _ .nil) k
  | .otherwise body, h, k => by
    rw [Arms.leftover, Block.render, List.append_assoc]
    exact (visible_hide_append (.lit _ (body.wellMarked h)) _).trans
      (visible_hide_append (.lit _ .nil) k)
  | .elif test body more, h, k => by
    rw [Arms.leftover, Block.render, List.append_assoc]
    exact (visible_hide_append (test.wellMarked_renderElif.append (body.wellMarked h.2.1)) _).trans
      (more.visible_leftover h.2.2 k)

mutual

/-- **What is visible of a residue** is what the pass makes of the block, when every conditional
is for the pass to decide. -/
theorem Block.visible_reduce (world : World) (pass : Pass) :
    (b : Block) → b.Readable → b.IsDecided pass → ∀ (inside : Bool) (d : Dictionary),
      (b.reduce world pass inside d).2 = (b.interpret world pass inside d).2 ∧
      ∀ k, visible ((b.reduce world pass inside d).1.render ++ k)
        = idsOf (b.interpret world pass inside d).1 ++ visible k
  | .empty, _, _, inside, d => ⟨rfl, fun k => rfl⟩
  | .word w, _, _, inside, d => by
    refine ⟨rfl, fun k => ?_⟩
    rw [Block.reduce, Block.render_ofOrdinary, visible_renderOrdinary]
    rfl
  | .hidden text, h, _, inside, d => ⟨rfl, fun k => visible_hide_append h.1 k⟩
  | .define late name body, _, _, inside, d =>
    ⟨rfl, fun k => visible_hide_append (wellMarked_renderDefine _ name body) k⟩
  | .seq first second, h, hd, inside, d => by
    obtain ⟨hdict₁, hvis₁⟩ := first.visible_reduce world pass h.1 hd.1 inside d
    obtain ⟨hdict₂, hvis₂⟩ := second.visible_reduce world pass h.2 hd.2 inside
      (first.interpret world pass inside d).2
    rw [Block.reduce, Block.interpret]
    dsimp only
    rw [hdict₁]
    refine ⟨hdict₂, fun k => ?_⟩
    rw [Block.render, List.append_assoc, hvis₁, hvis₂]
    simp [idsOf]
  | .conditional head body arms, h, hd, inside, d => by
    have hhead := head.wellMarked
    cases hopens : world.opens pass d head with
    | true =>
      obtain ⟨hdict, hvis⟩ := body.visible_reduce world pass h.2.1 hd.2.1 true d
      rw [Block.reduce_taken hd.1 hopens, Block.interpret, if_pos hopens]
      exact ⟨hdict, fun k => visible_hide_around hhead hvis (arms.visible_leftover h.2.2 k)⟩
    | false =>
      obtain ⟨hdict, hvis⟩ := arms.visible_reduce world pass h.2.2 hd.2.2 d
      rw [Block.reduce_dead hd.1 hopens, Block.interpret, if_neg (by simp [hopens])]
      refine ⟨hdict, fun k => ?_⟩
      rw [Block.render, List.append_assoc, Block.render,
        visible_hide_append (hhead.append (body.wellMarked h.2.1)), hvis]

theorem Arms.visible_reduce (world : World) (pass : Pass) :
    (arms : Arms) → arms.Readable → arms.IsDecided pass → ∀ d : Dictionary,
      (arms.reduce world pass d).2 = (arms.interpret world pass d).2 ∧
      ∀ k, visible ((arms.reduce world pass d).1.render ++ k)
        = idsOf (arms.interpret world pass d).1 ++ visible k
  | .endif, _, _, d => ⟨rfl, fun k => visible_hide_append (.lit _ .nil) k⟩
  | .otherwise body, h, hd, d => by
    obtain ⟨hdict, hvis⟩ := body.visible_reduce world pass h hd true d
    refine ⟨hdict, fun k => visible_hide_around (.lit _ .nil) hvis ?_⟩
    exact visible_hide_append (.lit _ .nil) k
  | .elif test body more, h, hd, d => by
    have htest := test.wellMarked_renderElif
    cases hholds : world.holds pass d test with
    | true =>
      obtain ⟨hdict, hvis⟩ := body.visible_reduce world pass h.2.1 hd.1 true d
      rw [Arms.reduce_taken hholds, Arms.interpret, if_pos hholds]
      exact ⟨hdict, fun k => visible_hide_around htest hvis (more.visible_leftover h.2.2 k)⟩
    | false =>
      obtain ⟨hdict, hvis⟩ := more.visible_reduce world pass h.2.2 hd.2 d
      rw [Arms.reduce_dead hholds, Arms.interpret, if_neg (by simp [hholds])]
      refine ⟨hdict, fun k => ?_⟩
      rw [Block.render, List.append_assoc, Block.render,
        visible_hide_append (htest.append (body.wellMarked h.2.1)), hvis]

end

/-- What is visible of a residue with nothing behind it. -/
theorem Block.visible_residue (world : World) (pass : Pass) {b : Block} (hreadable : b.Readable)
    (hdecided : b.IsDecided pass) (inside : Bool) (d : Dictionary) :
    visible (b.reduce world pass inside d).1.render
      = idsOf (b.interpret world pass inside d).1 := by
  have hvisible := (b.visible_reduce world pass hreadable hdecided inside d).2 []
  rw [List.append_nil, visible, List.append_nil] at hvisible
  exact hvisible

/-! ## 3. Blocks without definitions and signs

Without definitions a pass leaves the dictionary as it is, and without signs among the words and
among what replaces them, no expression that is left for the second pass can run on into the text
behind it. -/

/-- Whether a word would carry on an expression before it. -/
def Ordinary.isSign (w : Ordinary) : Bool := w.id = TokenId.orSign || w.id = TokenId.andSign

mutual

/-- A block without definitions and without words that are signs. -/
def Block.Stageable : Block → Prop
  | .empty => True
  | .word w => w.isSign = false
  | .hidden _ => True
  | .define _ _ _ => False
  | .seq first second => first.Stageable ∧ second.Stageable
  | .conditional _ body arms => body.Stageable ∧ arms.Stageable

/-- Arms without definitions and without words that are signs. -/
def Arms.Stageable : Arms → Prop
  | .endif => True
  | .otherwise body => body.Stageable
  | .elif _ body more => body.Stageable ∧ more.Stageable

end

/-- No macro of the first pass brings in a sign. -/
def Dictionary.SignFree (d : Dictionary) : Prop :=
  ∀ (id : TokenId) (body : List Ordinary), d.early id = some body → ∀ w ∈ body, w.isSign = false

mutual

theorem Block.reduce_dictionary (world : World) :
    (b : Block) → b.Stageable → ∀ (inside : Bool) (d : Dictionary),
      (b.reduce world .first inside d).2 = d
  | .empty, _, _, _ => rfl
  | .word _, _, _, _ => rfl
  | .hidden _, _, _, _ => rfl
  | .seq first second, h, inside, d => by
    rw [Block.reduce, first.reduce_dictionary world h.1, second.reduce_dictionary world h.2]
  | .conditional head body arms, h, inside, d => by
    have hbody := body.reduce_dictionary world h.1 true d
    cases hdeferred : head.isDeferred .first with
    | true =>
      rw [Block.reduce_deferred hdeferred, hbody]
      exact arms.defer_dictionary world h.2 d
    | false =>
      cases hopens : world.opens .first d head with
      | true => rw [Block.reduce_taken hdeferred hopens, hbody]
      | false =>
        rw [Block.reduce_dead hdeferred hopens]
        exact arms.reduce_dictionary world h.2 d

theorem Arms.reduce_dictionary (world : World) :
    (arms : Arms) → arms.Stageable → ∀ d : Dictionary, (arms.reduce world .first d).2 = d
  | .endif, _, _ => rfl
  | .otherwise body, h, d => body.reduce_dictionary world h true d
  | .elif test body more, h, d => by
    cases hholds : world.holds .first d test with
    | true => rw [Arms.reduce_taken hholds, body.reduce_dictionary world h.1 true d]
    | false => rw [Arms.reduce_dead hholds, more.reduce_dictionary world h.2 d]

theorem Arms.defer_dictionary (world : World) :
    (arms : Arms) → arms.Stageable → ∀ d : Dictionary, (arms.defer world .first d).2 = d
  | .endif, _, _ => rfl
  | .otherwise body, h, d => body.reduce_dictionary world h true d
  | .elif test body more, h, d => by
    rw [Arms.defer, body.reduce_dictionary world h.1 true d]
    exact more.defer_dictionary world h.2 d

end

theorem startsWithSign_append {xs ys : List Token} (hx : startsWithSign xs = false)
    (hy : startsWithSign ys = false) : startsWithSign (xs ++ ys) = false := by
  cases xs with
  | nil => exact hy
  | cons t rest => cases t <;> exact hx

theorem startsWithSign_hide (xs : List Token) : startsWithSign (hide xs) = false := by
  unfold hide
  split <;> rfl

theorem startsWithSign_hide_cons (t : Token) (xs k : List Token) :
    startsWithSign (hide (t :: xs) ++ k) = false := by
  obtain ⟨mark, rest, hhide, hmark⟩ := hide_cons (List.cons_ne_nil t xs)
  rw [hhide]
  cases mark with
  | lit id => cases hmark
  | skipOne => rfl
  | skipOpen => rfl
  | skipClose => rfl

theorem startsWithSign_head (head : Head) (k : List Token) :
    startsWithSign (head.render ++ k) = false := by
  cases head with
  | expression form late c => cases form <;> cases late <;> rfl
  | runtime negated name => cases negated <;> rfl

theorem Dictionary.SignFree.expand {d : Dictionary} (hd : d.SignFree) {w : Ordinary}
    (hw : w.isSign = false) : ∀ v ∈ d.expand .first w, v.isSign = false := by
  intro v hv
  rw [Dictionary.expand, Dictionary.current] at hv
  cases hbody : d.early w.id with
  | none =>
    rw [hbody, Option.getD_none, List.mem_singleton] at hv
    rw [hv]
    exact hw
  | some body =>
    rw [hbody, Option.getD_some] at hv
    exact hd w.id body hbody v hv

theorem startsWithSign_renderOrdinary {words : List Ordinary} (h : ∀ w ∈ words, w.isSign = false) :
    startsWithSign (renderOrdinary words) = false := by
  cases words with
  | nil => rfl
  | cons w words => exact h w List.mem_cons_self

/-- The residue of a block without signs starts with none. -/
theorem Block.startsWithSign_reduce (world : World) {d : Dictionary} (hd : d.SignFree) :
    (b : Block) → b.Stageable → ∀ inside : Bool,
      startsWithSign (b.reduce world .first inside d).1.render = false
  | .empty, _, _ => rfl
  | .word w, h, _ => by
    rw [Block.reduce, Block.render_ofOrdinary]
    exact startsWithSign_renderOrdinary (hd.expand h)
  | .hidden text, _, _ => startsWithSign_hide text
  | .seq first second, h, inside => by
    rw [Block.reduce, first.reduce_dictionary world h.1, Block.render]
    exact startsWithSign_append (first.startsWithSign_reduce world hd h.1 inside)
      (second.startsWithSign_reduce world hd h.2 inside)
  | .conditional head body arms, h, inside => by
    cases hdeferred : head.isDeferred .first with
    | true =>
      rw [Block.reduce_deferred hdeferred]
      exact startsWithSign_head head _
    | false =>
      cases hopens : world.opens .first d head with
      | true =>
        rw [Block.reduce_taken hdeferred hopens]
        exact startsWithSign_hide_cons _ _ _
      | false =>
        rw [Block.reduce_dead hdeferred hopens]
        exact startsWithSign_hide_cons _ _ _

theorem Block.readable_ofOrdinary (words : List Ordinary) : (Block.ofOrdinary words).Readable := by
  induction words with
  | nil => trivial
  | cons w words ih => exact ⟨trivial, ih⟩

/-- A hidden directive with what belongs to it can be read back. -/
theorem readable_hidden {id : TokenId} {rest : List Token} (h : WellMarked rest)
    (hid : id ≠ TokenId.defineLate) : (Block.hidden (.lit id :: rest)).Readable := by
  refine ⟨.lit id h, fun heq => hid ?_⟩
  cases heq
  rfl

theorem Head.id_ne_defineLate (head : Head) : head.id ≠ TokenId.defineLate := by
  intro h
  obtain ⟨d, hd, hopens⟩ := head.directive_opens
  rw [h] at hd
  obtain rfl : .define true = d := Option.some.inj hd
  cases hopens

theorem Test.id_ne_defineLate (test : Test) : test.id ≠ TokenId.defineLate := by
  intro h
  obtain ⟨d, hd, hdivides⟩ := test.directive_divides
  rw [h] at hd
  obtain rfl : .define true = d := Option.some.inj hd
  cases hdivides

theorem Arms.readable_leftover (arms : Arms) (h : arms.Readable) : arms.leftover.Readable := by
  cases arms with
  | endif => exact readable_hidden .nil (by decide)
  | otherwise body =>
    exact ⟨readable_hidden (body.wellMarked h) (by decide), readable_hidden .nil (by decide)⟩
  | elif test body more =>
    have htest := test.wellMarked.append (body.wellMarked h.2.1)
    exact ⟨readable_hidden htest test.id_ne_defineLate, more.readable_leftover h.2.2⟩

/-- A test in front of a branch stays readable in front of its residue. -/
theorem Test.Readable.of_sign {test : Test} {branch branch' : List Token}
    (h : test.Readable branch) (hbranch : startsWithSign branch' = false) :
    test.Readable branch' := by
  cases test with
  | expression c => exact ⟨h.1, h.2.1, hbranch⟩
  | runtime name => exact h

mutual

/-- **The residue of a first pass can be read back.** -/
theorem Block.reduce_readable (world : World) {d : Dictionary} (hd : d.SignFree) :
    (b : Block) → b.Readable → b.Stageable → ∀ inside : Bool,
      (b.reduce world .first inside d).1.Readable
  | .empty, _, _, _ => trivial
  | .word w, _, _, _ => Block.readable_ofOrdinary _
  | .hidden text, h, _, _ => h
  | .seq first second, h, hs, inside => by
    rw [Block.reduce, first.reduce_dictionary world hs.1]
    exact ⟨first.reduce_readable world hd h.1 hs.1 inside,
      second.reduce_readable world hd h.2 hs.2 inside⟩
  | .conditional head body arms, h, hs, inside => by
    have hbody := body.reduce_readable world hd h.2.1 hs.1 true
    cases hdeferred : head.isDeferred .first with
    | true =>
      rw [Block.reduce_deferred hdeferred, body.reduce_dictionary world hs.1]
      exact ⟨h.1.of_sign (body.startsWithSign_reduce world hd hs.1 true), hbody,
        arms.defer_readable world hd h.2.2 hs.2⟩
    | false =>
      cases hopens : world.opens .first d head with
      | true =>
        rw [Block.reduce_taken hdeferred hopens]
        exact ⟨readable_hidden head.test.wellMarked head.id_ne_defineLate, hbody,
          arms.readable_leftover h.2.2⟩
      | false =>
        rw [Block.reduce_dead hdeferred hopens]
        exact ⟨readable_hidden (head.test.wellMarked.append (body.wellMarked h.2.1))
          head.id_ne_defineLate, arms.reduce_readable world hd h.2.2 hs.2⟩

theorem Arms.reduce_readable (world : World) {d : Dictionary} (hd : d.SignFree) :
    (arms : Arms) → arms.Readable → arms.Stageable → (arms.reduce world .first d).1.Readable
  | .endif, _, _ => readable_hidden .nil (by decide)
  | .otherwise body, h, hs =>
    ⟨readable_hidden .nil (by decide), body.reduce_readable world hd h hs true,
      readable_hidden .nil (by decide)⟩
  | .elif test body more, h, hs => by
    cases hholds : world.holds .first d test with
    | true =>
      rw [Arms.reduce_taken hholds]
      exact ⟨readable_hidden test.wellMarked test.id_ne_defineLate,
        body.reduce_readable world hd h.2.1 hs.1 true, more.readable_leftover h.2.2⟩
    | false =>
      rw [Arms.reduce_dead hholds]
      exact ⟨readable_hidden (test.wellMarked.append (body.wellMarked h.2.1))
        test.id_ne_defineLate, more.reduce_readable world hd h.2.2 hs.2⟩

theorem Arms.defer_readable (world : World) {d : Dictionary} (hd : d.SignFree) :
    (arms : Arms) → arms.Readable → arms.Stageable → (arms.defer world .first d).1.Readable
  | .endif, _, _ => trivial
  | .otherwise body, h, hs => body.reduce_readable world hd h hs true
  | .elif test body more, h, hs => by
    rw [Arms.defer, body.reduce_dictionary world hs.1]
    exact ⟨h.1.of_sign (body.startsWithSign_reduce world hd hs.1 true),
      body.reduce_readable world hd h.2.1 hs.1 true, more.defer_readable world hd h.2.2 hs.2⟩

end

/-! ## 4. The second pass over a residue -/

section SecondPass

variable {world : World} {pass : Pass} {inside : Bool} {d : Dictionary}

theorem Block.interpret_ofOrdinary (words : List Ordinary) :
    (Block.ofOrdinary words).interpret world pass inside d
      = (words.flatMap (d.expand pass), d) := by
  induction words with
  | nil => rfl
  | cons w words ih =>
    rw [Block.ofOrdinary, Block.interpret, Block.interpret, ih]
    rfl

theorem Arms.interpret_leftover :
    (arms : Arms) → arms.leftover.interpret world pass inside d = ([], d)
  | .endif => rfl
  | .otherwise _ => rfl
  | .elif _ _ more => by
    rw [Arms.leftover, Block.interpret, Block.interpret, more.interpret_leftover]
    rfl

/-- Only what stands between the hidden parts of a conditional counts. -/
theorem Block.interpret_between {xs : List Token} {b c : Block} {out : List Ordinary}
    (hb : b.interpret world pass inside d = (out, d))
    (hc : c.interpret world pass inside d = ([], d)) :
    (Block.seq (.hidden xs) (.seq b c)).interpret world pass inside d = (out, d) := by
  simp only [Block.interpret, hb, hc, List.nil_append, List.append_nil]

theorem Block.interpret_behind {xs : List Token} {b : Block} {out : List Ordinary}
    (hb : b.interpret world pass inside d = (out, d)) :
    (Block.seq (.hidden xs) b).interpret world pass inside d = (out, d) := by
  simp only [Block.interpret, hb, List.nil_append]

end SecondPass

mutual

/-- **Staging.**  What the second pass makes of the residue of the first is the meaning of the block
over both passes. -/
theorem Block.interpret_reduce (worlds : Pass → World) (d : Dictionary) :
    (b : Block) → b.Stageable → ∀ inside outer : Bool,
      (b.reduce (worlds .first) .first inside d).1.interpret (worlds .second) .second outer d
        = (b.staged worlds d, d)
  | .empty, _, _, _ => rfl
  | .word w, _, _, _ => Block.interpret_ofOrdinary _
  | .hidden _, _, _, _ => rfl
  | .seq first second, h, inside, outer => by
    rw [Block.reduce, first.reduce_dictionary _ h.1, Block.interpret,
      first.interpret_reduce worlds d h.1, second.interpret_reduce worlds d h.2]
    rfl
  | .conditional head body arms, h, inside, outer => by
    cases hlate : head.isLate with
    | true =>
      have hdeferred : head.isDeferred .first = true := by simp [Head.isDeferred, hlate]
      have hstage : head.stage = .second := by simp [Head.stage, hlate]
      rw [Block.reduce_deferred hdeferred, body.reduce_dictionary _ h.1, Block.interpret,
        body.interpret_reduce worlds d h.1, arms.interpret_defer worlds d h.2, Block.staged, hstage]
      split <;> rfl
    | false =>
      have hdeferred : head.isDeferred .first = false := by simp [Head.isDeferred, hlate]
      have hstage : head.stage = .first := by simp [Head.stage, hlate]
      rw [Block.staged, hstage]
      cases hopens : (worlds .first).opens .first d head with
      | true =>
        rw [Block.reduce_taken hdeferred hopens, if_pos rfl]
        exact Block.interpret_between (body.interpret_reduce worlds d h.1 true outer)
          arms.interpret_leftover
      | false =>
        rw [Block.reduce_dead hdeferred hopens, if_neg (by simp)]
        exact Block.interpret_behind (arms.interpret_reduce worlds d h.2 outer)

theorem Arms.interpret_reduce (worlds : Pass → World) (d : Dictionary) :
    (arms : Arms) → arms.Stageable → ∀ outer : Bool,
      (arms.reduce (worlds .first) .first d).1.interpret (worlds .second) .second outer d
        = (arms.staged worlds d .first, d)
  | .endif, _, _ => rfl
  | .otherwise body, h, outer =>
    Block.interpret_between (body.interpret_reduce worlds d h true outer) rfl
  | .elif test body more, h, outer => by
    rw [Arms.staged]
    cases hholds : (worlds .first).holds .first d test with
    | true =>
      rw [Arms.reduce_taken hholds, if_pos rfl]
      exact Block.interpret_between (body.interpret_reduce worlds d h.1 true outer)
        more.interpret_leftover
    | false =>
      rw [Arms.reduce_dead hholds, if_neg (by simp)]
      exact Block.interpret_behind (more.interpret_reduce worlds d h.2 outer)

theorem Arms.interpret_defer (worlds : Pass → World) (d : Dictionary) :
    (arms : Arms) → arms.Stageable →
      (arms.defer (worlds .first) .first d).1.interpret (worlds .second) .second d
        = (arms.staged worlds d .second, d)
  | .endif, _ => rfl
  | .otherwise body, h => body.interpret_reduce worlds d h true true
  | .elif test body more, h => by
    rw [Arms.defer, body.reduce_dictionary _ h.1, Arms.interpret,
      body.interpret_reduce worlds d h.1, more.interpret_defer worlds d h.2, Arms.staged]
    split <;> rfl

end

end EffectScript
