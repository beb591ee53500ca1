import EffectScript.Proofs.Block

/-!
# The meaning of blocks

What a block means is said here on the tree, with no text, no cursor and no stack of open
conditionals.

A *dictionary* holds the macros of both passes, each with the words that replace it, and a *world*
what a test can ask beside them: the names that the platform defines and the runtime variables that
are set.  `Block.interpret` walks a block from left to right as one pass does, when every
conditional is for that pass to decide: a word is replaced once, a definition changes the
dictionary, and of a conditional only the first branch whose test holds is walked.

`Block.staged` is the meaning of a block without definitions over both passes: a conditional, with
all its arms, is decided for the pass that its head is for, wherever it stands, and a word is
replaced first by the macros of the first pass and then, word by word, by those of the second.
-/

namespace EffectScript

/-! ## 1. Dictionaries and worlds -/

/-- The macros of both passes. -/
structure Dictionary where
  early : TokenId → Option (List Ordinary)
  late : TokenId → Option (List Ordinary)

/-- What tests can ask beside the macros. -/
structure World where
  /-- The names that the platform defines. -/
  platform : TokenId → Bool
  /-- The runtime variables that are set to something other than zero. -/
  isSet : TokenId → Bool

namespace Dictionary

/-- The macros that a pass replaces in the text. -/
def current (d : Dictionary) : Pass → TokenId → Option (List Ordinary)
  | .first => d.early
  | .second => d.late

/-- What a pass puts for a word. -/
def expand (d : Dictionary) (pass : Pass) (w : Ordinary) : List Ordinary :=
  (d.current pass w.id).getD [w]

/-- Whether a name is defined in a pass: among its own macros, by the platform and, in the first
pass, among the macros of the second. -/
def defines (d : Dictionary) (world : World) : Pass → TokenId → Bool
  | .first, id => (d.early id).isSome || world.platform id || (d.late id).isSome
  | .second, id => (d.late id).isSome || world.platform id

/-- The macros in which `name` stands for `body`. -/
def put (name : Ordinary) (body : List Ordinary) (macros : TokenId → Option (List Ordinary)) :
    TokenId → Option (List Ordinary) :=
  fun id => if id = name.id then some body else macros id

/-- The dictionary after a definition.  In the first pass a late definition is one of the second
pass, and inside a conditional an early one is both. -/
def define (d : Dictionary) (inside late : Bool) (name : Ordinary) (body : List Ordinary) :
    Pass → Dictionary
  | .first =>
    { early := if late then d.early else put name body d.early
      late := if late || inside then put name body d.late else d.late }
  | .second => { d with late := put name body d.late }

end Dictionary

/-- Whether a test holds in a pass. -/
def World.holds (world : World) (pass : Pass) (d : Dictionary) : Test → Bool
  | .expression c => c.holds (d.defines world pass)
  | .runtime name => world.isSet name

/-- Whether a head opens its first branch. -/
def World.opens (world : World) (pass : Pass) (d : Dictionary) (head : Head) : Bool :=
  xor head.negates (world.holds pass d head.test)

/-! ## 2. One pass -/

mutual

/-- What a pass makes of a block, and the dictionary behind it; `inside` says whether the block is
part of a conditional. -/
def Block.interpret (world : World) (pass : Pass) (inside : Bool) :
    Block → Dictionary → List Ordinary × Dictionary
  | .empty, d => ([], d)
  | .word w, d => (d.expand pass w, d)
  | .hidden _, d => ([], d)
  | .define late name body, d => ([], d.define inside late name body pass)
  | .seq first second, d =>
    let one := first.interpret world pass inside d
    let two := second.interpret world pass inside one.2
    (one.1 ++ two.1, two.2)
  | .conditional head body arms, d =>
    if world.opens pass d head then body.interpret world pass true d
    else arms.interpret world pass d

/-- What a pass makes of the arms of a conditional of which no branch was taken. -/
def Arms.interpret (world : World) (pass : Pass) : Arms → Dictionary → List Ordinary × Dictionary
  | .endif, d => ([], d)
  | .otherwise body, d => body.interpret world pass true d
  | .elif test body more, d =>
    if world.holds pass d test then body.interpret world pass true d
    else more.interpret world pass d

end

/-! ## 3. Both passes -/

/-- The pass that decides a conditional. -/
def Head.stage (head : Head) : Pass := if head.isLate then .second else .first

mutual

/-- The meaning of a block over both passes, when the passes see the given worlds and no definition
changes the dictionary. -/
def Block.staged (worlds : Pass → World) (d : Dictionary) : Block → List Ordinary
  | .empty => []
  | .word w => (d.expand .first w).flatMap (d.expand .second)
  | .hidden _ => []
  | .define _ _ _ => []
  | .seq first second => first.staged worlds d ++ second.staged worlds d
  | .conditional head body arms =>
    if (worlds head.stage).opens head.stage d head then body.staged worlds d
    else arms.staged worlds d head.stage

/-- The meaning of the arms of a conditional that the given pass decides. -/
def Arms.staged (worlds : Pass → World) (d : Dictionary) (pass : Pass) : Arms → List Ordinary
  | .endif => []
  | .otherwise body => body.staged worlds d
  | .elif test body more =>
    if (worlds pass).holds pass d test then body.staged worlds d
    else more.staged worlds d pass

end

end EffectScript
