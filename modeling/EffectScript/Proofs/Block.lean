import EffectScript.Proofs.Condition
import EffectScript.Proofs.Marking
import EffectScript.Proofs.PassRun

/-!
# Blocks

A script is flat, and where a conditional ends is for a scan to find out.  A *block* is a text as a
tree: ordinary words, hidden text, definitions, and conditionals that hold blocks of their own.  A
conditional has a head with its first branch and then its *arms*: any number of further branches on
tests, perhaps one for all other cases, and the end.

`render` writes a block as a flat text.  It can be read back when the text is *readable*
(`Block.Readable`): every expression is within the bounds of the evaluator and asks for no
directive, and the branch behind an expression does not start with a sign, which would carry the
expression on.  Hidden text must be well marked, and no definition that a second pass would enter
again.

Main statement: `Block.deadLength?_render`.  The scan that goes over dead text takes a block as a
whole, at every level: it ends neither inside it nor on account of it.
-/

namespace EffectScript

/-! ## 1. Trees -/

/-- An ordinary token of a text. -/
structure Ordinary where
  id : TokenId
  ordinary : id.isOrdinary

/-- The token of a word. -/
def Ordinary.token (w : Ordinary) : Token := .lit w.id

/-- The directives that open a conditional on an expression. -/
inductive TestForm where
  | ifTest
  | ifdef
  | ifndef
  deriving DecidableEq, Repr

/-- What a further branch of a conditional asks. -/
inductive Test where
  | expression (c : Condition)
  | runtime (name : TokenId)

/-- How a conditional opens.  A late one is for the second pass to decide. -/
inductive Head where
  | expression (form : TestForm) (late : Bool) (c : Condition)
  | runtime (negated : Bool) (name : TokenId)

mutual

/-- A text as a tree. -/
inductive Block where
  | empty
  | word (w : Ordinary)
  /-- A unit of hidden text. -/
  | hidden (text : List Token)
  /-- A definition; a late one is for the second pass. -/
  | define (late : Bool) (name : Ordinary) (body : List Ordinary)
  | seq (first second : Block)
  | conditional (head : Head) (body : Block) (arms : Arms)

/-- What follows a branch of a conditional, up to its end. -/
inductive Arms where
  | endif
  | otherwise (body : Block)
  | elif (test : Test) (body : Block) (more : Arms)

end

/-! ## 2. How a block is written -/

namespace TokenId

def ifVar : TokenId := 17
def ifNotVar : TokenId := 18

end TokenId

/-- The id of a directive that opens a conditional on an expression. -/
def TestForm.id : TestForm → Bool → TokenId
  | ifTest, false => TokenId.ifTest
  | ifdef, false => TokenId.ifdef
  | ifndef, false => TokenId.ifndef
  | ifTest, true => TokenId.ifLate
  | ifdef, true => TokenId.ifdefLate
  | ifndef, true => TokenId.ifndefLate

/-- Whether a form opens the branch where the expression does not hold. -/
def TestForm.negates : TestForm → Bool
  | ifndef => true
  | _ => false

/-- The id of the directive of a head. -/
def Head.id : Head → TokenId
  | expression form late _ => form.id late
  | runtime negated _ => if negated then TokenId.ifNotVar else TokenId.ifVar

/-- What a head asks. -/
def Head.test : Head → Test
  | expression _ _ c => .expression c
  | runtime _ name => .runtime name

/-- Whether a head opens the branch where its test does not hold. -/
def Head.negates : Head → Bool
  | expression form _ _ => form.negates
  | runtime negated _ => negated

/-- Whether a head is for the second pass to decide. -/
def Head.isLate : Head → Bool
  | expression _ late _ => late
  | runtime _ _ => false

/-- The tokens of a test. -/
def Test.render : Test → List Token
  | expression c => c.render
  | runtime name => [.lit name]

/-- The id of the directive that starts a further branch. -/
def Test.id : Test → TokenId
  | expression _ => TokenId.elifTest
  | runtime _ => TokenId.elifVar

/-- How a head is written. -/
def Head.render (head : Head) : List Token := .lit head.id :: head.test.render

/-- How the start of a further branch is written. -/
def Test.renderElif (test : Test) : List Token := .lit test.id :: test.render

/-- How words are written. -/
def renderOrdinary (words : List Ordinary) : List Token := words.map Ordinary.token

/-- How a definition is written. -/
def renderDefine (late : Bool) (name : Ordinary) (body : List Ordinary) : List Token :=
  .lit (if late then TokenId.defineLate else TokenId.define) :: name.token ::
    (renderOrdinary body ++ [.lit TokenId.eol])

mutual

/-- The text of a block. -/
def Block.render : Block → List Token
  | .empty => []
  | .word w => [w.token]
  | .hidden text => hide text
  | .define late name body => renderDefine late name body
  | .seq first second => first.render ++ second.render
  | .conditional head body arms => head.render ++ (body.render ++ arms.render)

/-- The text of what follows a branch. -/
def Arms.render : Arms → List Token
  | .endif => [.lit TokenId.endif]
  | .otherwise body => .lit TokenId.elseBranch :: (body.render ++ [.lit TokenId.endif])
  | .elif test body more => test.renderElif ++ (body.render ++ more.render)

end

/-! ## 3. Readable texts -/

/-- A condition that asks for no directive. -/
def Condition.IsPlain (c : Condition) : Prop := ∀ id ∈ c.operands, Directive.ofId? id = none

/-- A test in front of a branch that can be read back from the text. -/
def Test.Readable (branch : List Token) : Test → Prop
  | .expression c => c.Fits ∧ c.IsPlain ∧ startsWithSign branch = false
  | .runtime name => Directive.ofId? name = none

mutual

/-- A block whose text can be read back. -/
def Block.Readable : Block → Prop
  | .empty => True
  | .word _ => True
  | .hidden text => WellMarked text ∧ text.head? ≠ some (.lit TokenId.defineLate)
  | .define _ _ _ => True
  | .seq first second => first.Readable ∧ second.Readable
  | .conditional head body arms =>
    head.test.Readable body.render ∧ body.Readable ∧ arms.Readable

/-- Arms whose text can be read back. -/
def Arms.Readable : Arms → Prop
  | .endif => True
  | .otherwise body => body.Readable
  | .elif test body more => test.Readable body.render ∧ body.Readable ∧ more.Readable

end

/-- The arms start with a directive, so an expression before an empty branch ends there. -/
theorem startsWithSign_branch {branch : List Token} (h : startsWithSign branch = false)
    (arms : Arms) (k : List Token) :
    startsWithSign (branch ++ (arms.render ++ k)) = false := by
  cases branch with
  | nil =>
    cases arms with
    | endif => rfl
    | otherwise body => rfl
    | elif test body more => cases test <;> rfl
  | cons t rest => cases t <;> exact h

/-- A test in front of a branch is read back there, whatever comes behind the conditional. -/
theorem Test.Readable.branch {test : Test} {branch : List Token} (h : test.Readable branch)
    (arms : Arms) (k : List Token) : test.Readable (branch ++ (arms.render ++ k)) := by
  cases test with
  | expression c => exact ⟨h.1, h.2.1, startsWithSign_branch h.2.2 arms k⟩
  | runtime name => exact h

/-! ## 4. Blocks are well marked -/

mutual

theorem Condition.wellMarked : (c : Condition) → WellMarked c.render
  | .last t => t.wellMarked
  | .more t sign doubled rest => by
    rw [Condition.render]
    refine (t.wellMarked.append ?_).append rest.wellMarked
    cases sign <;> cases doubled <;> exact wellMarked_of_lits (by decide)

theorem Term.wellMarked : (t : Term) → WellMarked t.render
  | .operand negated o => by
    cases negated
    · exact .lit _ .nil
    · exact .lit _ (.lit _ .nil)
  | .group negated inner => by
    have hinner := (WellMarked.lit TokenId.leftParen inner.wellMarked).append
      (.lit TokenId.rightParen .nil)
    cases negated
    · exact hinner
    · exact .lit _ hinner

end

theorem Test.wellMarked (test : Test) : WellMarked test.render := by
  cases test with
  | expression c => exact c.wellMarked
  | runtime name => exact .lit name .nil

theorem wellMarked_renderOrdinary (words : List Ordinary) : WellMarked (renderOrdinary words) := by
  induction words with
  | nil => exact .nil
  | cons w words ih => exact .lit w.id ih

theorem wellMarked_renderDefine (late : Bool) (name : Ordinary) (body : List Ordinary) :
    WellMarked (renderDefine late name body) :=
  .lit _ (.lit _ ((wellMarked_renderOrdinary body).append (.lit _ .nil)))

theorem Head.wellMarked (head : Head) : WellMarked head.render := .lit _ head.test.wellMarked

theorem Test.wellMarked_renderElif (test : Test) : WellMarked test.renderElif :=
  .lit _ test.wellMarked

mutual

/-- The text of a readable block is well marked. -/
theorem Block.wellMarked : (b : Block) → b.Readable → WellMarked b.render
  | .empty, _ => .nil
  | .word w, _ => .lit w.id .nil
  | .hidden _, h => WellMarked.hide h.1
  | .define late name body, _ => wellMarked_renderDefine late name body
  | .seq first second, h => (first.wellMarked h.1).append (second.wellMarked h.2)
  | .conditional head body arms, h =>
    head.wellMarked.append ((body.wellMarked h.2.1).append (arms.wellMarked h.2.2))

theorem Arms.wellMarked : (arms : Arms) → arms.Readable → WellMarked arms.render
  | .endif, _ => .lit _ .nil
  | .otherwise body, h => .lit _ ((body.wellMarked h).append (.lit _ .nil))
  | .elif test body more, h =>
    test.wellMarked_renderElif.append ((body.wellMarked h.2.1).append (more.wellMarked h.2.2))

end

/-! ## 5. Dead text

The scan counts the conditionals that open and close, and passes over everything else.  So the
lemmas come in two kinds: one for each way in which the scan goes over a token, and then, by
induction over the tree, one for a block at any level and one for arms one level further in. -/

section DeadText

variable {level : Nat} {k : List Token}

theorem deadLength?_quiet {id : TokenId} (h : Directive.ofId? id = none) :
    deadLength? level (.lit id :: k) = (deadLength? level k).map (· + 1) := by
  rw [deadLength?.eq_def]
  simp only [h]

theorem deadLength?_opens {id : TokenId} {d : Directive} (h : Directive.ofId? id = some d)
    (hd : d.opens) :
    deadLength? level (.lit id :: k) = (deadLength? (level + 1) k).map (· + 1) := by
  rw [deadLength?.eq_def]
  simp only [h, hd, if_true]

theorem deadLength?_divides {id : TokenId} {d : Directive} (h : Directive.ofId? id = some d)
    (hd : d.divides) :
    deadLength? (level + 1) (.lit id :: k) = (deadLength? (level + 1) k).map (· + 1) := by
  rw [deadLength?.eq_def]
  cases d <;> simp_all [Directive.divides, Directive.opens]

theorem deadLength?_endif :
    deadLength? (level + 1) (.lit TokenId.endif :: k) = (deadLength? level k).map (· + 1) := by
  rw [deadLength?.eq_def]
  rfl

theorem deadLength?_define (late : Bool) :
    deadLength? level
        (.lit (if late then TokenId.defineLate else TokenId.define) :: k)
      = (deadLength? level k).map (· + 1) := by
  rw [deadLength?.eq_def]
  cases late <;> rfl

/-- Dead text that starts with a literal token that does not end it, and more of it. -/
theorem deadLength?_cons {level' : Nat} {t : Token} {xs : List Token}
    (h : ∀ rest, deadLength? level (t :: rest) = (deadLength? level' rest).map (· + 1))
    (hxs : deadLength? level' (xs ++ k) = (deadLength? level' k).map (· + xs.length)) :
    deadLength? level (t :: xs ++ k) = (deadLength? level' k).map (· + (t :: xs).length) := by
  rw [List.cons_append, h, hxs, Option.map_map]
  rfl

theorem deadLength?_append {level' level'' : Nat} {xs ys : List Token}
    (hxs : ∀ rest, deadLength? level (xs ++ rest) = (deadLength? level' rest).map (· + xs.length))
    (hys : deadLength? level' (ys ++ k) = (deadLength? level'' k).map (· + ys.length)) :
    deadLength? level (xs ++ ys ++ k) = (deadLength? level'' k).map (· + (xs ++ ys).length) := by
  rw [List.append_assoc, hxs, hys, Option.map_map]
  congr 1
  funext n
  simp only [Function.comp_apply, List.length_append]
  omega

/-- The scan stops at a literal token, whatever follows, or goes over it. -/
theorem deadLength?_lit (level : Nat) (id : TokenId) :
    (∀ rest, deadLength? level (.lit id :: rest) = some 0) ∨
      ∃ level', ∀ rest,
        deadLength? level (.lit id :: rest) = (deadLength? level' rest).map (· + 1) := by
  cases hid : Directive.ofId? id with
  | none => exact .inr ⟨level, fun rest => deadLength?_quiet hid⟩
  | some d =>
    by_cases hopens : d.opens
    · exact .inr ⟨level + 1, fun rest => deadLength?_opens hid hopens⟩
    · by_cases hend : d = .endif
      · subst hend
        cases level with
        | zero =>
          refine .inl fun rest => ?_
          rw [deadLength?.eq_def]
          simp [hid, hopens]
        | succ level =>
          refine .inr ⟨level, fun rest => ?_⟩
          rw [deadLength?.eq_def]
          simp [hid, hopens]
      · by_cases hdivides : d.divides ∧ level = 0
        · refine .inl fun rest => ?_
          rw [deadLength?.eq_def]
          simp [hid, hopens, hend, hdivides]
        · refine .inr ⟨level, fun rest => ?_⟩
          rw [deadLength?.eq_def]
          simp [hid, hopens, hend, hdivides]

/-- The scan passes over a hidden unit. -/
theorem deadLength?_mark (level : Nat) {mark : Token} (h : mark.isLit = false) (rest : List Token) :
    deadLength? level (mark :: rest)
      = (deadLength? level (rest.drop (hiddenLength (mark :: rest) - 1))).map
          (· + hiddenLength (mark :: rest)) := by
  cases mark with
  | lit id => cases h
  | skipOne => rw [deadLength?]; simp
  | skipOpen => rw [deadLength?]; simp
  | skipClose => rw [deadLength?]; simp

theorem deadLength?_one (level : Nat) (t : Token) (rest : List Token) :
    deadLength? level (.skipOne :: t :: rest) = (deadLength? level rest).map (· + 2) :=
  deadLength?_mark level rfl (t :: rest)

theorem deadLength?_region (level : Nat) {inner : List Token} (h : WellMarked inner)
    (rest : List Token) :
    deadLength? level (.skipOpen :: (inner ++ .skipClose :: rest))
      = (deadLength? level rest).map (· + (inner.length + 2)) := by
  rw [deadLength?_mark level rfl, hiddenLength_region h]
  exact congrArg (fun more => (deadLength? level more).map _) (drop_region inner rest)

/-- The scan passes over hidden text. -/
theorem deadLength?_hide {text : List Token} (h : WellMarked text) :
    deadLength? level (hide text ++ k) = (deadLength? level k).map (· + (hide text).length) := by
  by_cases hne : text = []
  · subst hne
    simp [hide]
  · obtain ⟨mark, tail, hhide, hmark⟩ := hide_cons hne
    have hlen := hiddenLength_hide h hne k
    rw [hhide, List.cons_append] at hlen ⊢
    have hdrop : (tail ++ k).drop (tail.length + 1 - 1) = k := by
      rw [Nat.add_sub_cancel, List.drop_left]
    cases mark with
    | lit id => cases hmark
    | skipOne =>
      rw [deadLength?, hlen, List.length_cons, hdrop]
      simp
    | skipOpen =>
      rw [deadLength?, hlen, List.length_cons, hdrop]
      simp
    | skipClose =>
      rw [deadLength?, hlen, List.length_cons, hdrop]
      simp

/-- A text of literal tokens none of which is a directive. -/
def Quiet (tokens : List Token) : Prop := ∀ t ∈ tokens, t.isLit ∧ Directive.ofId? t.id = none

theorem quiet_cons {id : TokenId} {rest : List Token} (h : Directive.ofId? id = none)
    (hrest : Quiet rest) : Quiet (.lit id :: rest) := by
  intro t ht
  rcases List.mem_cons.mp ht with rfl | ht
  · exact ⟨rfl, h⟩
  · exact hrest t ht

theorem quiet_nil : Quiet [] := by
  intro t ht
  cases ht

theorem Quiet.append {xs ys : List Token} (hx : Quiet xs) (hy : Quiet ys) : Quiet (xs ++ ys) := by
  intro t ht
  rcases List.mem_append.mp ht with ht | ht
  · exact hx t ht
  · exact hy t ht

theorem deadLength?_of_quiet {xs : List Token} (h : Quiet xs) :
    deadLength? level (xs ++ k) = (deadLength? level k).map (· + xs.length) := by
  induction xs with
  | nil => simp
  | cons t rest ih =>
    obtain ⟨hlit, hid⟩ := h t List.mem_cons_self
    have hrest := ih fun u hu => h u (List.mem_cons_of_mem _ hu)
    cases t with
    | lit id => exact deadLength?_cons (fun _ => deadLength?_quiet hid) hrest
    | skipOne => cases hlit
    | skipOpen => cases hlit
    | skipClose => cases hlit

end DeadText

mutual

/-- The text of a condition that asks for no directive holds none. -/
theorem Condition.quiet_render :
    (c : Condition) → (∀ id ∈ c.operands, Directive.ofId? id = none) → Quiet c.render
  | .last t, h => t.quiet_render h
  | .more t sign doubled rest, h => by
    rw [Condition.render]
    refine (Quiet.append ?_ ?_).append ?_
    · exact t.quiet_render fun id hid => h id (List.mem_append_left _ hid)
    · cases sign <;> cases doubled <;> exact fun t ht => by revert t; decide
    · exact rest.quiet_render fun id hid => h id (List.mem_append_right _ hid)

theorem Term.quiet_render :
    (t : Term) → (∀ id ∈ t.operands, Directive.ofId? id = none) → Quiet t.render
  | .operand negated o, h => by
    have ho : Quiet [.lit o.id] := quiet_cons (h o.id List.mem_cons_self) quiet_nil
    cases negated
    · exact ho
    · exact quiet_cons rfl ho
  | .group negated inner, h => by
    have hinner : Quiet (.lit TokenId.leftParen :: inner.render ++ [.lit TokenId.rightParen]) :=
      (quiet_cons rfl (inner.quiet_render h)).append (quiet_cons rfl quiet_nil)
    cases negated
    · exact hinner
    · exact quiet_cons rfl hinner

end

theorem Test.quiet_render {test : Test} {branch : List Token} (h : test.Readable branch) :
    Quiet test.render := by
  cases test with
  | expression c => exact c.quiet_render h.2.1
  | runtime name => exact quiet_cons h quiet_nil

theorem Ordinary.not_directive (w : Ordinary) : Directive.ofId? w.id = none := by
  have h := w.ordinary
  simp only [TokenId.isOrdinary, Bool.and_eq_true, Option.isNone_iff_eq_none] at h
  exact h.1

theorem Ordinary.ne_eol (w : Ordinary) : w.id ≠ TokenId.eol := by
  have h := w.ordinary
  simp only [TokenId.isOrdinary, Bool.and_eq_true, bne_iff_ne] at h
  exact h.2

theorem quiet_renderOrdinary (words : List Ordinary) : Quiet (renderOrdinary words) := by
  induction words with
  | nil => exact quiet_nil
  | cons w words ih => exact quiet_cons w.not_directive ih

theorem Head.directive_opens (head : Head) :
    ∃ d, Directive.ofId? head.id = some d ∧ d.opens := by
  cases head with
  | expression form late c => cases form <;> cases late <;> exact ⟨_, rfl, rfl⟩
  | runtime negated name => cases negated <;> exact ⟨_, rfl, rfl⟩

theorem Test.directive_divides (test : Test) :
    ∃ d, Directive.ofId? test.id = some d ∧ d.divides := by
  cases test <;> exact ⟨_, rfl, rfl⟩

mutual

/-- **Dead text goes over a block as a whole**, at every level. -/
theorem Block.deadLength?_render :
    (b : Block) → b.Readable → ∀ (level : Nat) (k : List Token),
      deadLength? level (b.render ++ k) = (deadLength? level k).map (· + b.render.length)
  | .empty, _, level, k => by simp [Block.render]
  | .word w, _, level, k => deadLength?_of_quiet (quiet_cons w.not_directive quiet_nil)
  | .hidden _, h, level, k => deadLength?_hide h.1
  | .define late name body, _, level, k => by
    refine deadLength?_cons (fun _ => deadLength?_define late) (deadLength?_of_quiet ?_)
    exact quiet_cons name.not_directive
      ((quiet_renderOrdinary body).append (quiet_cons rfl quiet_nil))
  | .seq first second, h, level, k => by
    rw [Block.render]
    exact deadLength?_append (first.deadLength?_render h.1 level)
      (second.deadLength?_render h.2 level k)
  | .conditional head body arms, h, level, k => by
    obtain ⟨d, hd, hopens⟩ := head.directive_opens
    have hhead : ∀ rest, deadLength? level (head.render ++ rest)
        = (deadLength? (level + 1) rest).map (· + head.render.length) := fun rest =>
      deadLength?_cons (fun _ => deadLength?_opens hd hopens)
        (deadLength?_of_quiet (Test.quiet_render h.1))
    rw [Block.render]
    exact deadLength?_append hhead (deadLength?_append (body.deadLength?_render h.2.1 (level + 1))
      (arms.deadLength?_render h.2.2 level k))

/-- Dead text inside one conditional more leaves it at the end of its arms. -/
theorem Arms.deadLength?_render :
    (arms : Arms) → arms.Readable → ∀ (level : Nat) (k : List Token),
      deadLength? (level + 1) (arms.render ++ k)
        = (deadLength? level k).map (· + arms.render.length)
  | .endif, _, level, k => deadLength?_endif
  | .otherwise body, h, level, k => by
    have hend : deadLength? (level + 1) ([.lit TokenId.endif] ++ k)
        = (deadLength? level k).map (· + [Token.lit TokenId.endif].length) := deadLength?_endif
    have helse : ∀ rest, deadLength? (level + 1) (.lit TokenId.elseBranch :: rest)
        = (deadLength? (level + 1) rest).map (· + 1) := fun _ => deadLength?_divides rfl rfl
    have hbody := deadLength?_append (body.deadLength?_render h (level + 1)) hend
    rw [Arms.render, List.cons_append, helse, hbody, Option.map_map]
    rfl
  | .elif test body more, h, level, k => by
    obtain ⟨d, hd, hdivides⟩ := test.directive_divides
    have htest : ∀ rest, deadLength? (level + 1) (test.renderElif ++ rest)
        = (deadLength? (level + 1) rest).map (· + test.renderElif.length) := fun rest =>
      deadLength?_cons (fun _ => deadLength?_divides hd hdivides)
        (deadLength?_of_quiet (Test.quiet_render h.1))
    rw [Arms.render]
    exact deadLength?_append htest (deadLength?_append (body.deadLength?_render h.2.1 (level + 1))
      (more.deadLength?_render h.2.2 level k))

end

/-- Arms end dead text of their own level at once. -/
theorem Arms.deadLength?_zero (arms : Arms) (k : List Token) :
    deadLength? 0 (arms.render ++ k) = some 0 := by
  cases arms with
  | endif => exact deadLength?.eq_def .. |>.trans rfl
  | otherwise body => exact deadLength?.eq_def .. |>.trans rfl
  | elif test body more => cases test <;> exact deadLength?.eq_def .. |>.trans rfl

/-- **A dead branch ends where its block does.** -/
theorem Block.deadLength?_branch {b : Block} (h : b.Readable) (arms : Arms) (k : List Token) :
    deadLength? 0 (b.render ++ (arms.render ++ k)) = some b.render.length := by
  rw [b.deadLength?_render h, arms.deadLength?_zero, Option.map_some, Nat.zero_add]

end EffectScript
