import EffectScript.Conditional.Preprocessor
import EffectScript.Declaration.Object
import EffectScript.Storage.Library

/-!
# Compiled effects

An effect is compiled by running both passes over its script, the second over what the first left.
The files that it includes come from the library in which it is itself found.
-/

namespace EffectScript

/-- An effect after both passes. -/
structure Effect where
  name : Bytes
  /-- The tokens after the first pass. -/
  first : List Token
  /-- The tokens after the second pass. -/
  second : List Token
  /-- The spellings of both. -/
  table : SpellingTable
  deriving DecidableEq, Repr

/-- What compiling an effect gave. -/
structure Compilation where
  answer : Except Error Effect
  /-- The lines reported, in order. -/
  log : List Bytes
  /-- The texts registered with the environment, in order. -/
  env : List Bytes
  library : Library

namespace Effect

/-- Both passes over a bin. -/
def ofBin (p : Preprocessor Library) (name : Bytes) (b : Bin) (lib : Library) : Compilation :=
  let one := p.run 0 b.tokens b.table lib
  match one.result with
  | .error e => ⟨.error (e.within (.pass name 0)), one.log, one.env, one.source⟩
  | .ok first =>
    let two := one.after.run 1 first one.table one.source
    let log := one.log ++ two.log
    let env := one.env ++ two.env
    match two.result with
    | .error e => ⟨.error (e.within (.pass name 1)), log, env, two.source⟩
    | .ok second => ⟨.ok ⟨b.name, first, second, two.table⟩, log, env, two.source⟩

/-- The effect called `name` of a library, for a platform. -/
def compile (lib : Library) (platform : Option Platform) (name : Bytes)
    (runtime : Bytes → Option Int) (seeds : List Seed) : Compilation :=
  let found := lib.find name
  match found.answer with
  | .error e => ⟨.error e, found.log, [], found.library⟩
  | .ok b =>
    match Preprocessor.build platform runtime (some Library.resolver) seeds with
    | .error e => ⟨.error e, found.log, [], found.library⟩
    | .ok p =>
      let compiled := ofBin p name b found.library
      { compiled with log := found.log ++ compiled.log }

/-- The text of the effect, with its hidden tokens or without, and the cause if it could not be
written to its end. -/
def source (e : Effect) (withHidden : Bool) : Bytes × Option Cause :=
  sourceText e.table withHidden e.second

/-- A slicer that has gone through the effect once, and so has its fragments. -/
def slice (e : Effect) : Slicer := (Slicer.ofTokens e.second e.table).drain.2

end Effect

end EffectScript
