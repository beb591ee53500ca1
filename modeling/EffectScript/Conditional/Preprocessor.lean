import EffectScript.Conditional.Platform
import EffectScript.Conditional.Step

/-!
# Passes over scripts

`walk` takes a file to its end step by step, and `process` goes through a file and the files it
includes.  A file leaves no conditional open: at its end those it opened are dropped, and the
outermost of them is reported.

Files lie inside each other only as deep as there are names to include, because no name is
included inside itself; `levels` bounds that depth.

A `Preprocessor` keeps its settings, and between calls what the last call left: the macros of both
passes and the conditionals open at a failure.  A call starts from the settings alone; only the
macros of the first pass are kept as they are by a call of the second, which never asks for them.
-/

namespace EffectScript

variable {σ : Type}

/-! ## 1. A file, and the files it includes -/

/-- What a pass over a file gave: its output, or the error that ended it, and the state then. -/
abbrev PassResult (σ : Type) := Except Error (List Token) × PassState σ

/-- The output behind what was put out before it. -/
def PassResult.prepend (emitted : List Token) (r : PassResult σ) : PassResult σ :=
  (r.1.map (emitted ++ ·), r.2)

/-- The end of a file that began inside `base` conditionals. -/
def finish (name : Bytes) (base : Nat) (s : PassState σ) : PassResult σ :=
  match Branch.outermostAbove? base s.branches with
  | none => (.ok [], s)
  | some b =>
    (.error ((Error.ofCause .missingEndif).within (.token name b.start)),
      { s with branches := Branch.outer base s.branches })

/-- The rest of the file `name` from `index` on.  `enter` goes through an included file. -/
def walk (around : Surroundings σ) (pass : Pass)
    (enter : Bytes → List Token → PassState σ → PassResult σ) (path : List Bytes) (name : Bytes)
    (base index : Nat) (tokens : List Token) (s : PassState σ) : PassResult σ :=
  match tokens with
  | [] => finish name base s
  | first :: rest =>
    match step around pass path base index first rest s with
    | .fail e s => (.error (e.within (.token name index)), s)
    | .next used emitted s =>
      PassResult.prepend emitted
        (walk around pass enter path name base (index + used) (rest.drop (used - 1)) s)
    | .enter used emitted file inside s =>
      match enter file inside s with
      | (.error e, s) => (.error (e.within (.token name index)), s)
      | (.ok inner, s) =>
        PassResult.prepend (emitted ++ inner)
          (walk around pass enter path name base (index + used) (rest.drop (used - 1)) s)
termination_by tokens.length
decreasing_by
  all_goals
    simp only [List.length_cons, List.length_drop]
    omega

/-- The file `name` inside the files of `path`, when `levels` more may lie inside each other. -/
def process (around : Surroundings σ) (pass : Pass) :
    (levels : Nat) → (path : List Bytes) → (name : Bytes) → List Token → PassState σ →
      PassResult σ
  | 0, _, _, _, s => (.error (Error.ofCause .includeDepth), s)
  | levels + 1, path, name, tokens, s =>
    walk around pass
      (fun file inside s => process around pass levels (file :: path) file inside s)
      path name s.branches.length 0 tokens s

/-! ## 2. Preprocessors -/

/-- A macro that a pass starts with. -/
structure Seed where
  pass : Int
  name : Bytes
  value : Bytes
  deriving DecidableEq, Repr

/-- A preprocessor between two calls. -/
structure Preprocessor (σ : Type) where
  around : Surroundings σ
  /-- The macros that the first pass starts with. -/
  earlySeeds : MacroTable
  /-- The macros that the second pass starts with. -/
  lateSeeds : MacroTable
  /-- The spellings of the seeds. -/
  seedTable : SpellingTable
  /-- The macros of the first pass that the last call left. -/
  early : MacroTable
  /-- The macros of the second pass that the last call left. -/
  late : MacroTable
  /-- The conditionals that the last call left open by failing. -/
  branches : List Branch

namespace Preprocessor

/-- The preprocessor with one more seed. -/
def addSeed (p : Preprocessor σ) (seed : Seed) : Except Error (Preprocessor σ) :=
  match Pass.ofNumber? seed.pass with
  | none => .error (Error.ofCause (.badSeedPass seed.pass seed.name))
  | some pass =>
    match Script.read seed.value with
    | .error c => .error ((Error.ofCause c).within (.definition seed.name))
    | .ok script =>
      match p.seedTable.intern seed.name with
      | .error c => .error (Error.ofCause c)
      | .ok (id, table) =>
        let p := { p with seedTable := table.merge script.table }
        match pass with
        | .first => .ok { p with earlySeeds := p.earlySeeds.define id ⟨script.tokens, 0⟩ }
        | .second => .ok { p with lateSeeds := p.lateSeeds.define id ⟨script.tokens, 0⟩ }

/-- The preprocessor with more seeds, in order. -/
def addSeeds (p : Preprocessor σ) : List Seed → Except Error (Preprocessor σ)
  | [] => .ok p
  | seed :: rest =>
    match p.addSeed seed with
    | .error e => .error e
    | .ok p => p.addSeeds rest

/-- A preprocessor for a platform, with its seeds. -/
def build (platform : Option Platform) (runtime : Bytes → Option Int)
    (resolver : Option (Resolver σ)) (seeds : List Seed) : Except Error (Preprocessor σ) :=
  let macros := (platform.map (·.macros)).getD .empty
  addSeeds
    ⟨⟨macros, runtime, resolver⟩, .empty, .empty, .empty, .empty, .empty, []⟩ seeds

/-- The number of conditionals that the last call left open. -/
def depth (p : Preprocessor σ) : Nat := p.branches.length

/-- The macro called `name` that the last call left among those of a pass. -/
def lookup? (p : Preprocessor σ) (pass : Int) (name : Bytes) : Option Definition :=
  match Pass.ofNumber? pass with
  | none => none
  | some .first => p.early.lookup? (TokenId.ofSpelling name)
  | some .second => p.late.lookup? (TokenId.ofSpelling name)

/-- What a call gave. -/
structure Report (σ : Type) where
  result : Except Error (List Token)
  /-- The spellings of the result; after an error, those met up to it. -/
  table : SpellingTable
  log : List Bytes
  env : List Bytes
  /-- The preprocessor after the call. -/
  after : Preprocessor σ
  source : σ

/-- The state in which a pass starts.  The first pass starts both tables anew, the second only
its own. -/
def start (p : Preprocessor σ) (pass : Pass) (table : SpellingTable) (source : σ) :
    PassState σ where
  early := match pass with
    | .first => p.earlySeeds
    | .second => p.early
  late := p.lateSeeds
  table := table.merge p.seedTable
  branches := []
  log := []
  env := []
  source := source

/-- More than the number of files that can lie inside each other.  Their names differ, and each is a
keyword or one of the spellings that the input, the seeds and the resolver's files bring. -/
def levels (p : Preprocessor σ) (table : SpellingTable) (source : σ) : Nat :=
  let files := match p.around.resolver with
    | some r => r.capacity source
    | none => 0
  Vocabulary.words.length + table.entries.length + p.seedTable.entries.length + files + 2

/-- One pass over some tokens with the given spellings.  An error is also reported as a line,
except that of a pass that does not exist, which leaves everything as it was. -/
def run (p : Preprocessor σ) (pass : Int) (tokens : List Token) (table : SpellingTable)
    (source : σ) : Report σ :=
  match Pass.ofNumber? pass with
  | none => ⟨.error (Error.ofCause (.badPass pass)), table, [], [], p, source⟩
  | some number =>
    let (result, s) :=
      process p.around number (p.levels table source) [] [] tokens (p.start number table source)
    let log := match result with
      | .ok _ => s.log
      | .error e => s.log ++ [e.message]
    ⟨result, s.table, log, s.env,
      { p with early := s.early, late := s.late, branches := s.branches }, s.source⟩

end Preprocessor

end EffectScript
