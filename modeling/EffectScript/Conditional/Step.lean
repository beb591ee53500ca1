import EffectScript.Conditional.Expression
import EffectScript.Conditional.PassState

/-!
# One step of a pass

A pass looks at the first token that is left, takes some tokens off the input, and says what
stands for them in the output.  A hidden unit passes through; a directive is hidden, with the dead
text behind it when its branch does not hold; a macro is replaced by its tokens; every other token
stands for itself.

`step` makes the choice and this module has a function for each directive.  None of them calls
itself or another file: including is left to the caller (`Step.enter`).

All these functions see the tokens from the directive on, its index in its file, and the number
`base` of conditionals that were open where the file began: a file can neither divide nor end a
conditional that it did not open.

In the tool, `step` is one turn of the loop of `process` and `directiveStep` is `directive`, whose
cases for conditionals are the functions of section 1; `branchStep` is `branch` and `withBranch` is
`frame`.  `defineStep` is `define`, `replay` is `reapply`, `bodyOf` goes up to `bodyEnd`,
`includeStep` is `include`, and `textArgument` is `quoted`.
-/

namespace EffectScript

/-- What a step does. -/
inductive Step (σ : Type) where
  /-- Take `used` tokens, at least one, and put `emitted` into the output. -/
  | next (used : Nat) (emitted : List Token) (s : PassState σ)
  /-- The same, and go through an included file before what follows. -/
  | enter (used : Nat) (emitted : List Token) (name : Bytes) (file : List Token) (s : PassState σ)
  /-- Give up. -/
  | fail (e : Error) (s : PassState σ)

variable {σ : Type}

/-- Give up for a cause that arises here. -/
def Step.failWith (c : Cause) (s : PassState σ) : Step σ := .fail (Error.ofCause c) s

/-! ## 1. Conditionals -/

/-- Hide the `used` tokens of a directive, and the dead text behind it unless its branch is
live. -/
def branchStep (tokens : List Token) (used : Nat) (live : Bool) (s : PassState σ) : Step σ :=
  if live then .next used (hide (tokens.take used)) s
  else
    match deadLength? 0 (tokens.drop used) with
    | some dead => .next (used + dead) (hide (tokens.take (used + dead))) s
    | none => .failWith .missingEndif s

/-- Open a conditional on an expression. -/
def ifTestStep (around : Surroundings σ) (pass : Pass) (index : Nat) (tokens : List Token)
    (negated late : Bool) (s : PassState σ) : Step σ :=
  let verdict := evaluate (s.scope around pass) (index + 1) tokens.tail
  let used := verdict.stop - index
  match verdict.value with
  | .error c => .failWith c s
  | .ok holds =>
    if pass = .first && late then
      .next used (tokens.take used) (s.push ⟨true, false, false, verdict.mask, index⟩)
    else
      let live := if negated then !holds else holds
      branchStep tokens used live (s.push ⟨false, live, false, verdict.mask, index⟩)

/-- Open a conditional on a runtime variable. -/
def ifVarStep (around : Surroundings σ) (index : Nat) (tokens : List Token) (negated : Bool)
    (s : PassState σ) : Step σ :=
  match tokens.tail with
  | [] => .failWith .truncated s
  | name :: _ =>
    let (isSet, s) := s.testVariable around name.id
    let live := if negated then !isSet else isSet
    branchStep tokens 2 live (s.push ⟨false, live, false, 0, index⟩)

/-- Go on with the innermost conditional of the file, for a directive called `name`. -/
def withBranch (base : Nat) (name : String) (s : PassState σ) (go : Branch → Step σ) : Step σ :=
  match s.branches with
  | [] => .failWith (.noMatchingIf (Bytes.ofString name)) s
  | top :: _ =>
    if s.branches.length ≤ base then .failWith (.noMatchingIf (Bytes.ofString name)) s else go top

/-- Start another branch, on an expression. -/
def elifTestStep (around : Surroundings σ) (pass : Pass) (base index : Nat) (tokens : List Token)
    (s : PassState σ) : Step σ :=
  withBranch base "#elif" s fun top =>
    let verdict := evaluate (s.scope around pass) (index + 1) tokens.tail
    let used := verdict.stop - index
    match verdict.value with
    | .error c => .failWith c s
    | .ok holds =>
      if top.deferred then .next used (tokens.take used) s
      else if top.closed then .failWith .elseAfterElse s
      else if top.taken then branchStep tokens used false s
      else branchStep tokens used holds (s.setTop { top with mask := verdict.mask, taken := holds })

/-- Start another branch, on a runtime variable. -/
def elifVarStep (around : Surroundings σ) (base : Nat) (tokens : List Token) (s : PassState σ) :
    Step σ :=
  withBranch base "#elifcvar" s fun top =>
    match tokens.tail with
    | [] => .failWith .truncated s
    | name :: _ =>
      if top.deferred then .next 2 (tokens.take 2) s
      else if top.closed then .failWith .elseAfterElse s
      else if top.taken then branchStep tokens 2 false s
      else
        let (isSet, s) := s.testVariable around name.id
        branchStep tokens 2 isSet (s.setTop { top with taken := isSet })

/-- Start the branch for all other cases. -/
def elseStep (base : Nat) (tokens : List Token) (s : PassState σ) : Step σ :=
  withBranch base "#else" s fun top =>
    if top.deferred then .next 1 (tokens.take 1) s
    else if top.closed then .failWith .elseAfterElse s
    else
      branchStep tokens 1 (!top.taken) (s.setTop { top with closed := top.taken, taken := true })

/-- Close the innermost conditional. -/
def endifStep (base : Nat) (tokens : List Token) (s : PassState σ) : Step σ :=
  withBranch base "#endif" s fun top =>
    let shown := if top.deferred then tokens.take 1 else hide (tokens.take 1)
    .next 1 shown { s with branches := s.branches.tail }

/-! ## 2. Macros -/

/-- The body of a definition: the tokens before the mark of its end. -/
def bodyOf (tokens : List Token) : List Token := tokens.takeWhile (· != .lit TokenId.eol)

/-- Define a macro.  The first pass leaves the definition for the second one to find, hidden and
in its late form; inside a conditional it also enters it into the macros of the second pass. -/
def defineStep (pass : Pass) (late : Bool) (tokens : List Token) (s : PassState σ) : Step σ :=
  match tokens.tail with
  | .lit id :: after =>
    let body := bodyOf after
    let used := 2 + body.length + (if body.length < after.length then 1 else 0)
    let mask := if late then s.leadingMask body else Branch.maskAll s.branches
    let definition : Definition := ⟨body, mask⟩
    match pass with
    | .second => .next used (hide (tokens.take used)) { s with late := s.late.define id definition }
    | .first =>
      let s :=
        if late then { s with late := s.late.define id definition }
        else { s with early := s.early.define id definition }
      let s := if s.branches = [] then s else { s with late := s.late.define id definition }
      .next used
        (hide (.lit TokenId.defineLate :: .lit id :: body ++ [.lit TokenId.eol])) s
  | _ => .failWith .truncated s

/-- Enter a definition that the first pass left in a hidden unit into the macros of the second. -/
def replay (s : PassState σ) (unit : List Token) : PassState σ :=
  match unit with
  | .skipOpen :: .lit directive :: .lit id :: inner =>
    if directive = TokenId.defineLate && inner != [] then
      let body := bodyOf inner.dropLast
      { s with late := s.late.define id ⟨body, s.leadingMask body⟩ }
    else s
  | _ => s

/-- Forget a macro of the pass; the first pass looks among those of the second too. -/
def undefineStep (pass : Pass) (tokens : List Token) (s : PassState σ) : Step σ :=
  match tokens.tail with
  | [] => .failWith .truncated s
  | name :: _ =>
    let id := name.id
    let s :=
      if (s.current pass).defines id then s.setCurrent pass ((s.current pass).erase id)
      else if pass = .first && s.late.defines id then { s with late := s.late.erase id }
      else
        s.warn (Bytes.ofString "couldn't find macro " ++
          Text.quoted (s.table.spellingOrName id))
    .next 2 (hide (tokens.take 2)) s

/-- Replace a macro of the pass; every other token stands for itself. -/
def plainStep (pass : Pass) (id : TokenId) (s : PassState σ) : Step σ :=
  match (s.current pass).lookup? id with
  | some d => .next 1 d.tokens s
  | none => .next 1 [.lit id] s

/-! ## 3. Files and texts -/

/-- Include a file, unless it is being included already. -/
def includeStep (around : Surroundings σ) (path : List Bytes) (tokens : List Token)
    (s : PassState σ) : Step σ :=
  match tokens.tail with
  | [] => .failWith .truncated s
  | token :: _ =>
    match s.table.spelling? token.id with
    | none => .failWith (.unspelledInclude token.id) s
    | some name =>
      match around.resolver with
      | none => .fail ((Error.ofCause .noResolver).within (.inclusion name)) s
      | some resolver =>
        if path.contains name then .failWith (.includeCycle name) s
        else
          let found := resolver.resolve name s.source
          let s := { s with log := s.log ++ found.log, source := found.source }
          match found.answer with
          | .error e => .fail (e.within (.inclusion name)) s
          | .ok file =>
            .enter 2 (hide (tokens.take 2)) name file.tokens
              { s with table := s.table.merge file.table }

/-- The argument of a directive that takes a text, and how many tokens it is: a run between
quotes, its words joined by blanks, or a single token. -/
def textArgument (s : PassState σ) (tokens : List Token) : Bytes × Nat :=
  match tokens with
  | [] => ([], 0)
  | t :: rest =>
    if t = .lit TokenId.quote then
      let words := rest.takeWhile (· != .lit TokenId.quote)
      (Bytes.joinWith [0x20] (words.map fun w => s.table.spellingOrName w.id),
        1 + words.length + (if words.length < rest.length then 1 else 0))
    else (s.table.spellingOrName t.id, 1)

/-- Report a text. -/
def warningStep (tokens : List Token) (s : PassState σ) : Step σ :=
  let (text, used) := textArgument s tokens.tail
  .next (1 + used) (hide (tokens.take (1 + used))) (s.warn text)

/-- Register a text with the environment. -/
def registerEnvStep (tokens : List Token) (s : PassState σ) : Step σ :=
  let (text, used) := textArgument s tokens.tail
  .next (1 + used) (hide (tokens.take (1 + used))) { s with env := s.env ++ [text] }

/-! ## 4. The choice -/

/-- The step for a directive. -/
def directiveStep (around : Surroundings σ) (pass : Pass) (path : List Bytes) (base index : Nat)
    (tokens : List Token) (s : PassState σ) : Directive → Step σ
  | .includeFile => includeStep around path tokens s
  | .define late => defineStep pass late tokens s
  | .undefine => undefineStep pass tokens s
  | .ifTest negated late => ifTestStep around pass index tokens negated late s
  | .ifVar negated => ifVarStep around index tokens negated s
  | .elifTest => elifTestStep around pass base index tokens s
  | .elifVar => elifVarStep around base tokens s
  | .elseBranch => elseStep base tokens s
  | .endif => endifStep base tokens s
  | .warning => warningStep tokens s
  | .registerEnv => registerEnvStep tokens s

/-- The step for a hidden unit of the given length. -/
def hiddenStep (pass : Pass) (length : Nat) (tokens : List Token) (s : PassState σ) : Step σ :=
  let unit := tokens.take length
  .next length unit (if pass = .second then replay s unit else s)

/-- The step at `index` of a file, where the tokens `first :: rest` are left. -/
def step (around : Surroundings σ) (pass : Pass) (path : List Bytes) (base index : Nat)
    (first : Token) (rest : List Token) (s : PassState σ) : Step σ :=
  match first with
  | .lit id =>
    match Directive.ofId? id with
    | some d => directiveStep around pass path base index (first :: rest) s d
    | none => if id = TokenId.eol then .next 1 [] s else plainStep pass id s
  | _ => hiddenStep pass (hiddenLength (first :: rest)) (first :: rest) s

end EffectScript
