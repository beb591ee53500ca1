import EffectScript.Proofs.Residue

/-!
# A pass over the text of a block

A pass has no tree: it is a cursor with a stack of open conditionals, and a scan that goes over dead
text.  This module shows that on the text of a readable block it leaves exactly the residue of the
block.

The induction is over the tree.  What carries it is that the macros of the state say what the
dictionary says (`Agrees`), that the conditionals open before a block are open behind it, and that
arms are met with the innermost conditional in one of three conditions: no branch taken yet, a
branch taken, or left to the other pass.  What follows a block is arbitrary throughout.

Main statement: `Block.reaches_reduce`.
-/

namespace EffectScript

variable {σ : Type}

/-! ## 1. States and dictionaries -/

theorem lookup_filter_ne {α β : Type} [BEq α] [LawfulBEq α] {key other : α} (h : other ≠ key)
    (entries : List (α × β)) :
    (entries.filter (·.1 != key)).lookup other = entries.lookup other := by
  induction entries with
  | nil => rfl
  | cons e entries ih =>
    obtain ⟨first, value⟩ := e
    by_cases hfirst : first = key
    · subst hfirst
      have hne : (other == first) = false := beq_false_of_ne h
      simp [List.lookup_cons, hne, ih]
    · by_cases hother : other = first <;> simp [hfirst, List.lookup_cons, hother, ih]

theorem lookup_filter_self {α β : Type} [BEq α] [LawfulBEq α] (key : α) (entries : List (α × β)) :
    (entries.filter (·.1 != key)).lookup key = none := by
  rw [List.lookup_eq_none_iff]
  intro e he
  have hne := (List.mem_filter.mp he).2
  rw [bne_iff_ne] at hne
  exact bne_iff_ne.mpr hne.symm

theorem MacroTable.lookup?_define (t : MacroTable) (id other : TokenId) (definition : Definition) :
    (t.define id definition).lookup? other
      = if other = id then some definition else t.lookup? other := by
  unfold define lookup? erase
  by_cases h : other = id
  · subst h
    rw [if_pos rfl, List.lookup_cons_self]
  · have hne : (other == id) = false := by simpa using h
    rw [if_neg h, List.lookup_cons, hne]
    exact lookup_filter_ne h t.entries

theorem MacroTable.lookup?_erase (t : MacroTable) (id other : TokenId) :
    (t.erase id).lookup? other = if other = id then none else t.lookup? other := by
  unfold erase lookup?
  by_cases h : other = id
  · subst h
    rw [if_pos rfl]
    exact lookup_filter_self other t.entries
  · rw [if_neg h]
    exact lookup_filter_ne h t.entries

/-- The macros of a table are the given ones. -/
def MacroTable.Means (t : MacroTable) (macros : TokenId → Option (List Ordinary)) : Prop :=
  ∀ id, (t.lookup? id).map (·.tokens) = (macros id).map renderOrdinary

theorem MacroTable.Means.defines {t : MacroTable} {macros : TokenId → Option (List Ordinary)}
    (h : t.Means macros) (id : TokenId) : t.defines id = (macros id).isSome := by
  have hid := congrArg Option.isSome (h id)
  simpa [MacroTable.defines] using hid

theorem MacroTable.Means.define {t : MacroTable} {macros : TokenId → Option (List Ordinary)}
    (h : t.Means macros) (name : Ordinary) (body : List Ordinary) (mask : UInt64) :
    (t.define name.id ⟨renderOrdinary body, mask⟩).Means (Dictionary.put name body macros) := by
  intro id
  rw [lookup?_define, Dictionary.put]
  by_cases hid : id = name.id
  · rw [if_pos hid, if_pos hid]
    rfl
  · rw [if_neg hid, if_neg hid]
    exact h id

/-- What tests can ask in some surroundings, where a table spells the names. -/
def World.of (around : Surroundings σ) (table : SpellingTable) : World where
  platform := around.platform.defines
  isSet name := (around.runtime (table.spellingOrName name)).any (· != 0)

/-- A state says what a dictionary and a world say, and the conditionals of `stack` are open. -/
structure Agrees (around : Surroundings σ) (world : World) (d : Dictionary) (stack : List Branch)
    (s : PassState σ) : Prop where
  early : s.early.Means d.early
  late : s.late.Means d.late
  world_eq : world = World.of around s.table
  branches : s.branches = stack

section Questions

variable {around : Surroundings σ} {world : World} {d : Dictionary} {stack : List Branch}
  {s : PassState σ}

/-- The conditionals and the report can change on their own. -/
theorem Agrees.restack (h : Agrees around world d stack s) (log : List Bytes)
    (other : List Branch) :
    Agrees around world d other { s with log := log, branches := other } :=
  ⟨h.early, h.late, h.world_eq, rfl⟩

theorem Agrees.platform (h : Agrees around world d stack s) (id : TokenId) :
    around.platform.defines id = world.platform id := by
  rw [h.world_eq]
  rfl

/-- The names that a pass finds defined are those of the dictionary and the world. -/
theorem Agrees.defines (h : Agrees around world d stack s) (pass : Pass) :
    (s.scope around pass).defines = d.defines world pass := by
  funext id
  cases pass with
  | first =>
    simp [PassState.scope, Scope.defines, Dictionary.defines, h.early.defines, h.late.defines,
      h.platform, Bool.or_assoc]
  | second =>
    simp [PassState.scope, Scope.defines, Dictionary.defines, h.late.defines, h.platform]

/-- Asking for a runtime variable changes the report at most. -/
theorem Agrees.testVariable (h : Agrees around world d stack s) (name : TokenId) :
    ∃ log, s.testVariable around name = (world.isSet name, { s with log := log }) := by
  rw [h.world_eq]
  unfold PassState.testVariable World.of
  dsimp only
  cases around.runtime (s.table.spellingOrName name) with
  | some v => exact ⟨s.log, rfl⟩
  | none => exact ⟨_, rfl⟩

theorem Agrees.current (h : Agrees around world d stack s) (pass : Pass) :
    (s.current pass).Means (d.current pass) := by
  cases pass with
  | first => exact h.early
  | second => exact h.late

/-- A condition is read back with the value that the dictionary gives it. -/
theorem Agrees.evaluate (h : Agrees around world d stack s) (pass : Pass) (index : Nat)
    {c : Condition} {k : List Token} (hfits : c.Fits) (hk : startsWithSign k = false) :
    EffectScript.evaluate (s.scope around pass) index (c.render ++ k)
      = ⟨.ok (c.holds (d.defines world pass)), (s.scope around pass).maskOfAll c.operands,
          index + c.render.length, k⟩ := by
  rw [← h.defines pass]
  exact evaluate_render _ hfits index hk

end Questions

/-! ## 2. Runs up to a set of states -/

/-- A pass gets from `tokens` to `rest`, wherever they stand in the file, with the output `out` and
in a state of `P`. -/
def Reaches (around : Surroundings σ) (pass : Pass) (path : List Bytes) (base : Nat)
    (tokens : List Token) (s : PassState σ) (out rest : List Token) (P : PassState σ → Prop) :
    Prop :=
  ∀ index, ∃ index' s',
    Leads around pass path base ⟨index, tokens, s⟩ out ⟨index', rest, s'⟩ ∧ P s'

section Reaching

variable {around : Surroundings σ} {pass : Pass} {path : List Bytes} {base : Nat}
  {s : PassState σ} {P Q : PassState σ → Prop}

theorem Reaches.refl {tokens : List Token} (h : P s) :
    Reaches around pass path base tokens s [] tokens P :=
  fun index => ⟨index, s, .refl _, h⟩

theorem Reaches.trans {tokens rest after out more : List Token}
    (h₁ : Reaches around pass path base tokens s out rest P)
    (h₂ : ∀ s', P s' → Reaches around pass path base rest s' more after Q) :
    Reaches around pass path base tokens s (out ++ more) after Q := by
  intro index
  obtain ⟨index₁, s₁, hleads₁, hs₁⟩ := h₁ index
  obtain ⟨index₂, s₂, hleads₂, hs₂⟩ := h₂ s₁ hs₁ index₁
  exact ⟨index₂, s₂, hleads₁.trans hleads₂, hs₂⟩

/-- One step that takes the tokens `first :: xs`. -/
theorem Reaches.one {first : Token} {xs k emitted : List Token}
    (h : ∀ index, ∃ s',
      step around pass path base index first (xs ++ k) s = .next (xs.length + 1) emitted s' ∧
      P s') :
    Reaches around pass path base (first :: xs ++ k) s emitted k P := by
  intro index
  obtain ⟨s', hstep, hs'⟩ := h index
  refine ⟨_, s', Leads.one hstep ?_, hs'⟩
  exact List.drop_left

/-- The directive `first :: xs` starts a branch that is taken. -/
theorem Reaches.live {first : Token} {xs k : List Token} {live : Bool} (hlive : live = true)
    (h : ∀ index, ∃ s', step around pass path base index first (xs ++ k) s
      = branchStep (first :: xs ++ k) (xs.length + 1) live s' ∧ P s') :
    Reaches around pass path base (first :: xs ++ k) s (hide (first :: xs)) k P := by
  subst hlive
  refine Reaches.one fun index => ?_
  obtain ⟨s', hstep, hs'⟩ := h index
  refine ⟨s', hstep.trans ?_, hs'⟩
  have htake : (first :: xs ++ k).take (xs.length + 1) = first :: xs :=
    List.take_left' rfl
  rw [branchStep, if_pos rfl, htake]

/-- The directive `first :: xs` starts a branch that is dead, and `body` is that branch. -/
theorem Reaches.dead {first : Token} {xs : List Token} {body : Block} {arms : Arms}
    {k : List Token} {live : Bool} (hlive : live = false) (hbody : body.Readable)
    (h : ∀ index, ∃ s',
      step around pass path base index first (xs ++ (body.render ++ (arms.render ++ k))) s
        = branchStep (first :: xs ++ (body.render ++ (arms.render ++ k))) (xs.length + 1) live s'
      ∧ P s') :
    Reaches around pass path base (first :: xs ++ (body.render ++ (arms.render ++ k))) s
      (hide (first :: xs ++ body.render)) (arms.render ++ k) P := by
  subst hlive
  rw [← List.append_assoc, List.cons_append, List.cons_append]
  refine Reaches.one fun index => ?_
  obtain ⟨s', hstep, hs'⟩ := h index
  refine ⟨s', ?_, hs'⟩
  -- The scan goes over the branch and stops at the arms, so what is hidden is the directive with
  -- the whole branch behind it.
  have hdrop : (first :: xs ++ (body.render ++ (arms.render ++ k))).drop (xs.length + 1)
      = body.render ++ (arms.render ++ k) := List.drop_left' rfl
  have htake : (first :: xs ++ (body.render ++ (arms.render ++ k))).take
      (xs.length + 1 + body.render.length) = first :: xs ++ body.render := by
    rw [← List.append_assoc]
    exact List.take_left' (by simp; omega)
  rw [List.append_assoc, hstep, branchStep, hdrop, body.deadLength?_branch hbody]
  simp only [Bool.false_eq_true, if_false, htake, List.length_append]
  congr 1
  omega

end Reaching

/-! ## 3. Words, hidden text and definitions -/

section Plain

variable {around : Surroundings σ} {pass : Pass} {path : List Bytes} {base : Nat} {world : World}
  {d : Dictionary} {stack : List Branch} {s : PassState σ}

theorem reaches_word (h : Agrees around world d stack s) (w : Ordinary) (k : List Token) :
    Reaches around pass path base ([w.token] ++ k) s (renderOrdinary (d.expand pass w)) k
      (Agrees around world d stack) := by
  refine Reaches.one fun index => ⟨s, ?_, h⟩
  have hmeans := h.current pass w.id
  have hstep : step around pass path base index w.token ([] ++ k) s = plainStep pass w.id s := by
    simp [step, Ordinary.token, w.not_directive, w.ne_eol]
  rw [hstep, plainStep, Dictionary.expand]
  cases hlookup : (s.current pass).lookup? w.id with
  | none =>
    rw [hlookup, Option.map_none, eq_comm, Option.map_eq_none_iff] at hmeans
    rw [hmeans]
    rfl
  | some definition =>
    rw [hlookup, Option.map_some, eq_comm, Option.map_eq_some_iff] at hmeans
    obtain ⟨words, hwords, htokens⟩ := hmeans
    rw [hwords, Option.getD_some, htokens]
    rfl

/-- Hidden text that is no late definition enters nothing. -/
theorem replay_hide (s : PassState σ) {text : List Token}
    (h : text.head? ≠ some (.lit TokenId.defineLate)) : replay s (hide text) = s := by
  unfold hide
  split
  · rfl
  · rfl
  · unfold replay
    split
    · rename_i directive id inner heq
      rw [if_neg]
      intro hboth
      obtain ⟨hdirective, -⟩ := Bool.and_eq_true_iff.mp hboth
      obtain rfl := of_decide_eq_true hdirective
      cases text with
      | nil => cases heq
      | cons t rest =>
        injection heq with _ heq
        injection heq with ht _
        rw [ht] at h
        exact h rfl
    · rfl

theorem reaches_hidden (h : Agrees around world d stack s) {text : List Token}
    (hmarked : WellMarked text) (hinert : text.head? ≠ some (.lit TokenId.defineLate))
    (k : List Token) :
    Reaches around pass path base (hide text ++ k) s (hide text) k
      (Agrees around world d stack) := by
  by_cases hne : text = []
  · subst hne
    exact Reaches.refl h
  · obtain ⟨mark, tail, hhide, hmark⟩ := hide_cons hne
    have hlen := hiddenLength_hide hmarked hne k
    have hreplay := replay_hide s hinert
    rw [hhide] at hlen hreplay ⊢
    refine Reaches.one fun index => ⟨s, ?_, h⟩
    have hstep : step around pass path base index mark (tail ++ k) s
        = hiddenStep pass (hiddenLength (mark :: (tail ++ k))) (mark :: (tail ++ k)) s := by
      cases mark <;> first | rfl | cases hmark
    have htake : (mark :: (tail ++ k)).take (tail.length + 1) = mark :: tail := by
      rw [List.take_succ_cons, List.take_left]
    rw [List.cons_append, List.length_cons] at hlen
    rw [hstep, hlen, hiddenStep]
    simp only [htake, hreplay, ite_self]

theorem bodyOf_renderOrdinary (body : List Ordinary) (k : List Token) :
    bodyOf (renderOrdinary body ++ .lit TokenId.eol :: k) = renderOrdinary body := by
  unfold bodyOf
  induction body with
  | nil => rfl
  | cons w body ih =>
    have hw : (w.token != .lit TokenId.eol) = true := by
      simp [Ordinary.token, w.ne_eol]
    rw [renderOrdinary, List.map_cons, List.cons_append, List.takeWhile_cons, if_pos hw]
    exact congrArg _ ih

theorem Dictionary.put_put (name : Ordinary) (body : List Ordinary)
    (macros : TokenId → Option (List Ordinary)) :
    put name body (put name body macros) = put name body macros := by
  funext id
  unfold put
  split <;> rfl

/-- A definition in the first pass.  Inside a conditional it is entered among the macros of the
second pass too, a late one for the second time. -/
theorem Agrees.defineFirst (h : Agrees around world d stack s) (late : Bool) (name : Ordinary)
    (body : List Ordinary) (mask : UInt64) {s₁ : PassState σ}
    (hs₁ : s₁ = if late then { s with late := s.late.define name.id ⟨renderOrdinary body, mask⟩ }
      else { s with early := s.early.define name.id ⟨renderOrdinary body, mask⟩ }) :
    Agrees around world (d.define (!stack.isEmpty) late name body .first) stack
      (if s₁.branches = [] then s₁
        else { s₁ with late := s₁.late.define name.id ⟨renderOrdinary body, mask⟩ }) := by
  have hearly := h.early.define name body mask
  have hlate := h.late.define name body mask
  have htwice := hlate.define name body mask
  rw [Dictionary.put_put] at htwice
  have hs₁b : s₁.branches = stack := by
    rw [hs₁]
    cases late <;> exact h.branches
  have hinside : (!stack.isEmpty) = !decide (s₁.branches = []) := by
    rw [hs₁b]
    cases stack <;> rfl
  rw [hinside]
  by_cases hempty : s₁.branches = []
  · rw [if_pos hempty, decide_eq_true hempty]
    cases late with
    | true =>
      subst hs₁
      exact ⟨h.early, hlate, h.world_eq, h.branches⟩
    | false =>
      subst hs₁
      exact ⟨hearly, h.late, h.world_eq, h.branches⟩
  · rw [if_neg hempty, decide_eq_false hempty]
    cases late with
    | true =>
      subst hs₁
      exact ⟨h.early, htwice, h.world_eq, h.branches⟩
    | false =>
      subst hs₁
      exact ⟨hearly, hlate, h.world_eq, h.branches⟩

theorem reaches_define (h : Agrees around world d stack s) (late : Bool) (name : Ordinary)
    (body : List Ordinary) (k : List Token) :
    Reaches around pass path base (renderDefine late name body ++ k) s
      (hide (renderDefine (late || pass = .first) name body)) k
      (Agrees around world (d.define (!stack.isEmpty) late name body pass) stack) := by
  refine Reaches.one fun index => ?_
  have hdirective : Directive.ofId? (if late then TokenId.defineLate else TokenId.define)
      = some (.define late) := by cases late <;> rfl
  have hafter : name.token :: (renderOrdinary body ++ [.lit TokenId.eol]) ++ k
      = .lit name.id :: (renderOrdinary body ++ .lit TokenId.eol :: k) := by
    simp [Ordinary.token]
  have hused : 2 + (renderOrdinary body).length
        + (if (renderOrdinary body).length
            < (renderOrdinary body ++ .lit TokenId.eol :: k).length then 1 else 0)
      = (name.token :: (renderOrdinary body ++ [.lit TokenId.eol])).length + 1 := by
    simp
    omega
  simp only [step, hdirective, directiveStep, defineStep, List.tail_cons, hafter,
    bodyOf_renderOrdinary, hused]
  -- The first pass writes every definition in its late form, the second one as it finds it.
  cases pass with
  | first =>
    have hecho : (late || decide (Pass.first = Pass.first)) = true := by simp
    rw [hecho]
    exact ⟨_, rfl, h.defineFirst late name body _ rfl⟩
  | second =>
    have hecho : (late || decide (Pass.second = Pass.first)) = late := by simp
    have htake : (renderDefine late name body ++ k).take
        ((name.token :: (renderOrdinary body ++ [.lit TokenId.eol])).length + 1)
        = renderDefine late name body := List.take_left' rfl
    rw [renderDefine, List.cons_append, hafter] at htake
    dsimp only
    rw [hecho, htake]
    exact ⟨_, rfl, h.early, h.late.define name body _, h.world_eq, h.branches⟩

end Plain

/-! ## 4. The directives of conditionals -/

/-- How far an open conditional has got. -/
inductive Standing where
  /-- It is for the other pass to decide. -/
  | deferred
  /-- No branch was taken yet. -/
  | seeking
  /-- A branch was taken. -/
  | taken
  /-- The branch for all other cases came after one that was taken. -/
  | closed
  deriving DecidableEq, Repr

/-- The standing of a conditional, in the order in which a directive looks. -/
def Branch.standing (b : Branch) : Standing :=
  if b.deferred then .deferred
  else if b.closed then .closed
  else if b.taken then .taken
  else .seeking

/-- The standing behind a test of the branch that comes next. -/
def Standing.ofLive (live : Bool) : Standing := if live then .taken else .seeking

/-- A choice that looks at a conditional is a choice by its standing. -/
theorem Branch.ite_standing {α : Type} (b : Branch) (deferred closed taken seeking : α) :
    (if b.deferred then deferred else if b.closed then closed else if b.taken then taken
      else seeking)
      = match b.standing with
        | .deferred => deferred
        | .closed => closed
        | .taken => taken
        | .seeking => seeking := by
  unfold standing
  split
  · rfl
  · split
    · rfl
    · split <;> rfl

theorem Branch.standing_eq_ofLive {b : Branch} (live : Bool) :
    b.standing = .ofLive live ↔ b.deferred = false ∧ b.closed = false ∧ b.taken = live := by
  obtain ⟨deferred, taken, closed, mask, start⟩ := b
  cases deferred <;> cases closed <;> cases taken <;> cases live <;>
    simp [standing, Standing.ofLive]

theorem Branch.standing_eq_deferred {b : Branch} :
    b.standing = .deferred ↔ b.deferred = true := by
  obtain ⟨deferred, taken, closed, mask, start⟩ := b
  cases deferred <;> cases closed <;> cases taken <;> simp [standing]

/-- Testing the next branch of a conditional that is still seeking. -/
theorem Branch.standing_retest {b : Branch} (h : b.standing = .seeking) (live : Bool)
    (mask : UInt64) : Branch.standing { b with mask := mask, taken := live } = .ofLive live := by
  obtain ⟨hdeferred, hclosed, -⟩ := (standing_eq_ofLive false).mp h
  exact (standing_eq_ofLive live).mpr ⟨hdeferred, hclosed, rfl⟩

/-- A pass stands inside a conditional, with others around it. -/
def Within (around : Surroundings σ) (world : World) (d : Dictionary) (outer : List Branch)
    (standing : Standing) (s : PassState σ) : Prop :=
  ∃ top : Branch, top.standing = standing ∧ Agrees around world d (top :: outer) s

theorem withBranch_cons {s : PassState σ} {top : Branch} {outer : List Branch} {base : Nat}
    (h : s.branches = top :: outer) (hbase : base ≤ outer.length) (name : String)
    (go : Branch → Step σ) : withBranch base name s go = go top := by
  have hlen : ¬ (top :: outer).length ≤ base := by
    rw [List.length_cons]
    omega
  simp only [withBranch, h, hlen, if_false]

section Conditionals

variable {around : Surroundings σ} {pass : Pass} {path : List Bytes} {base : Nat} {world : World}
  {d : Dictionary} {stack outer : List Branch} {s : PassState σ} {k : List Token}

theorem step_directive {id : TokenId} {directive : Directive}
    (h : Directive.ofId? id = some directive) (index : Nat) (rest : List Token) :
    step around pass path base index (.lit id) rest s
      = directiveStep around pass path base index (.lit id :: rest) s directive := by
  simp only [step, h]

theorem Agrees.push (h : Agrees around world d stack s) (log : List Bytes) (top : Branch) :
    Within around world d stack top.standing ({ s with log := log }.push top) := by
  refine ⟨top, rfl, ?_⟩
  have hpush : ({ s with log := log } : PassState σ).push top
      = { s with log := log, branches := top :: stack } := by
    rw [PassState.push, h.branches]
  rw [hpush]
  exact h.restack log _

theorem Agrees.setTop {top : Branch} (h : Agrees around world d (top :: outer) s)
    (log : List Bytes) (other : Branch) :
    Within around world d outer other.standing ({ s with log := log }.setTop other) := by
  refine ⟨other, rfl, ?_⟩
  have hset : ({ s with log := log } : PassState σ).setTop other
      = { s with log := log, branches := other :: outer } := by
    rw [PassState.setTop, h.branches, List.tail_cons]
  rw [hset]
  exact h.restack log _

/-! ### Heads -/

theorem TestForm.directive (form : TestForm) (late : Bool) :
    Directive.ofId? (form.id late) = some (.ifTest form.negates late) := by
  cases form <;> cases late <;> rfl

theorem xor_eq_ite (negated holds : Bool) :
    (if negated then !holds else holds) = xor negated holds := by
  cases negated <;> cases holds <;> rfl

/-- A head that the pass decides. -/
theorem step_head (h : Agrees around world d stack s) {head : Head}
    (hdecided : head.isDeferred pass = false) (hk : head.test.Readable k) (index : Nat) :
    ∃ s', step around pass path base index (.lit head.id) (head.test.render ++ k) s
        = branchStep (head.render ++ k) (head.test.render.length + 1) (world.opens pass d head) s'
      ∧ Within around world d stack (.ofLive (world.opens pass d head)) s' := by
  cases head with
  | expression form late c =>
    obtain ⟨hfits, -, hsign⟩ := hk
    have hverdict := h.evaluate pass (index + 1) hfits hsign
    have hused : index + 1 + c.render.length - index = c.render.length + 1 := by omega
    have hearly : (decide (pass = .first) && late) = false := hdecided
    refine ⟨_, ?_, h.push s.log
      ⟨false, world.opens pass d (.expression form late c), false,
        (s.scope around pass).maskOfAll c.operands, index⟩⟩
    rw [Head.id, Head.test, Test.render, step_directive (form.directive late)]
    simp only [directiveStep, ifTestStep, List.tail_cons, hverdict, hused, hearly, xor_eq_ite,
      Bool.false_eq_true, if_false]
    rfl
  | runtime negated name =>
    obtain ⟨log, hlog⟩ := h.testVariable name
    have hdirective : Directive.ofId? (Head.runtime negated name).id = some (.ifVar negated) := by
      cases negated <;> rfl
    refine ⟨_, ?_, h.push log ⟨false, world.opens pass d (.runtime negated name), false, 0, index⟩⟩
    rw [step_directive hdirective, directiveStep, ifVarStep]
    simp only [Head.test, Test.render, List.singleton_append, List.tail_cons, Token.id, hlog,
      xor_eq_ite]
    rfl

/-- A head that is left to the other pass. -/
theorem reaches_head_deferred (h : Agrees around world d stack s) {head : Head}
    (hdeferred : head.isDeferred pass = true) (hk : head.test.Readable k) :
    Reaches around pass path base (head.render ++ k) s head.render k
      (Within around world d stack .deferred) := by
  refine Reaches.one fun index => ?_
  cases head with
  | expression form late c =>
    obtain ⟨hfits, -, hsign⟩ := hk
    have hverdict := h.evaluate pass (index + 1) hfits hsign
    have hused : index + 1 + c.render.length - index = c.render.length + 1 := by omega
    have hlate : (decide (pass = .first) && late) = true := hdeferred
    refine ⟨_, ?_, h.push s.log
      ⟨true, false, false, (s.scope around pass).maskOfAll c.operands, index⟩⟩
    rw [Head.id, Head.test, Test.render, step_directive (form.directive late)]
    simp only [directiveStep, ifTestStep, List.tail_cons, hverdict, hused, hlate, if_true,
      List.take_succ_cons, List.take_left]
    rfl
  | runtime negated name =>
    have hlate : (decide (pass = .first) && false) = true := hdeferred
    rw [Bool.and_false] at hlate
    cases hlate

/-! ### Further branches -/

/-- What a further branch does, by the standing of its conditional. -/
theorem step_elif {top : Branch} (h : Agrees around world d (top :: outer) s)
    (hbase : base ≤ outer.length) {test : Test} (hk : test.Readable k) (index : Nat) :
    ∃ s', step around pass path base index (.lit test.id) (test.render ++ k) s
        = (match top.standing with
          | .deferred => .next (test.render.length + 1) test.renderElif s
          | .closed => .failWith .elseAfterElse s
          | .taken => branchStep (test.renderElif ++ k) (test.render.length + 1) false s
          | .seeking =>
            branchStep (test.renderElif ++ k) (test.render.length + 1) (world.holds pass d test) s')
      ∧ (top.standing = .seeking →
          Within around world d outer (.ofLive (world.holds pass d test)) s') := by
  cases test with
  | expression c =>
    obtain ⟨hfits, -, hsign⟩ := hk
    have hverdict := h.evaluate pass (index + 1) hfits hsign
    have hused : index + 1 + c.render.length - index = c.render.length + 1 := by omega
    refine ⟨s.setTop { top with
      mask := (s.scope around pass).maskOfAll c.operands
      taken := c.holds (d.defines world pass) }, ?_, fun hseeking => ?_⟩
    · rw [Test.id, Test.render, step_directive rfl]
      simp only [directiveStep, elifTestStep, withBranch_cons h.branches hbase, List.tail_cons,
        hverdict, hused, List.take_succ_cons, List.take_left, top.ite_standing]
      rfl
    · rw [← Branch.standing_retest hseeking _ ((s.scope around pass).maskOfAll c.operands)]
      exact h.setTop s.log _
  | runtime name =>
    obtain ⟨log, hlog⟩ := h.testVariable name
    refine ⟨{ s with log := log }.setTop { top with taken := world.isSet name }, ?_,
      fun hseeking => ?_⟩
    · rw [Test.id, Test.render, step_directive rfl]
      simp only [directiveStep, elifVarStep, withBranch_cons h.branches hbase, List.tail_cons,
        List.singleton_append, Token.id, hlog, List.take_succ_cons, List.take_zero,
        top.ite_standing]
      rfl
    · rw [← Branch.standing_retest hseeking _ top.mask]
      exact h.setTop log _

/-- A further branch where none was taken yet. -/
theorem step_elif_seeking (h : Within around world d outer .seeking s)
    (hbase : base ≤ outer.length) {test : Test} (hk : test.Readable k) (index : Nat) :
    ∃ s', step around pass path base index (.lit test.id) (test.render ++ k) s
        = branchStep (test.renderElif ++ k) (test.render.length + 1) (world.holds pass d test) s'
      ∧ Within around world d outer (.ofLive (world.holds pass d test)) s' := by
  obtain ⟨top, hstanding, ha⟩ := h
  obtain ⟨s', hstep, hs'⟩ := step_elif ha hbase hk index
  rw [hstanding] at hstep
  exact ⟨s', hstep, hs' hstanding⟩

/-- A further branch behind one that was taken. -/
theorem step_elif_taken (h : Within around world d outer .taken s)
    (hbase : base ≤ outer.length) {test : Test} (hk : test.Readable k) (index : Nat) :
    ∃ s', step around pass path base index (.lit test.id) (test.render ++ k) s
        = branchStep (test.renderElif ++ k) (test.render.length + 1) false s'
      ∧ Within around world d outer .taken s' := by
  obtain ⟨top, hstanding, ha⟩ := h
  obtain ⟨_, hstep, -⟩ := step_elif ha hbase hk index
  rw [hstanding] at hstep
  exact ⟨s, hstep, top, hstanding, ha⟩

/-- A further branch of a conditional that is left to the other pass. -/
theorem reaches_elif_deferred (h : Within around world d outer .deferred s)
    (hbase : base ≤ outer.length) {test : Test} (hk : test.Readable k) :
    Reaches around pass path base (test.renderElif ++ k) s test.renderElif k
      (Within around world d outer .deferred) := by
  obtain ⟨top, hstanding, ha⟩ := h
  refine Reaches.one fun index => ?_
  obtain ⟨_, hstep, -⟩ := step_elif ha hbase hk index
  rw [hstanding] at hstep
  exact ⟨s, hstep, top, hstanding, ha⟩

/-- The branch for all other cases, in a conditional that the pass decides. -/
theorem step_else (taken : Bool) (h : Within around world d outer (.ofLive taken) s)
    (hbase : base ≤ outer.length) (index : Nat) (rest : List Token) :
    ∃ s', step around pass path base index (.lit TokenId.elseBranch) rest s
        = branchStep (.lit TokenId.elseBranch :: rest) 1 (!taken) s'
      ∧ Within around world d outer (if taken then .closed else .taken) s' := by
  obtain ⟨top, hstanding, ha⟩ := h
  obtain ⟨hdeferred, hclosed, htaken⟩ := (Branch.standing_eq_ofLive taken).mp hstanding
  have hset := ha.setTop s.log { top with closed := taken, taken := true }
  have hnext : Branch.standing { top with closed := taken, taken := true }
      = if taken then .closed else .taken := by
    cases taken <;> simp [Branch.standing, hdeferred]
  rw [hnext] at hset
  refine ⟨_, ?_, hset⟩
  rw [step_directive rfl]
  simp only [directiveStep, elseStep, withBranch_cons ha.branches hbase, hdeferred, hclosed, htaken,
    Bool.false_eq_true, if_false]

/-- The branch for all other cases, in a conditional that is left to the other pass. -/
theorem reaches_else_deferred (h : Within around world d outer .deferred s)
    (hbase : base ≤ outer.length) :
    Reaches around pass path base ([.lit TokenId.elseBranch] ++ k) s [.lit TokenId.elseBranch] k
      (Within around world d outer .deferred) := by
  obtain ⟨top, hstanding, ha⟩ := h
  refine Reaches.one fun index => ⟨s, ?_, top, hstanding, ha⟩
  rw [step_directive rfl]
  simp only [directiveStep, elseStep, withBranch_cons ha.branches hbase,
    Branch.standing_eq_deferred.mp hstanding, if_true]
  rfl

/-- The end of a conditional, which stays visible when it is for the other pass. -/
theorem reaches_endif {standing : Standing} (h : Within around world d outer standing s)
    (hbase : base ≤ outer.length) :
    Reaches around pass path base ([.lit TokenId.endif] ++ k) s
      (if standing = .deferred then [.lit TokenId.endif] else hide [.lit TokenId.endif]) k
      (Agrees around world d outer) := by
  obtain ⟨top, rfl, ha⟩ := h
  refine Reaches.one fun index => ⟨_, ?_, ha.restack s.log outer⟩
  rw [step_directive rfl]
  simp only [directiveStep, endifStep, withBranch_cons ha.branches hbase, ha.branches,
    List.tail_cons, Branch.standing_eq_deferred]
  rfl

end Conditionals

/-! ## 5. A pass over a block -/

section Blocks

variable {around : Surroundings σ} {pass : Pass} {path : List Bytes} {base : Nat} {world : World}

/-- Behind a branch that was taken, every arm is hidden as a unit. -/
theorem Arms.reaches_leftover {d : Dictionary} {outer : List Branch}
    (hbase : base ≤ outer.length) : (arms : Arms) → arms.Readable →
      ∀ {s : PassState σ} (k : List Token), Within around world d outer .taken s →
        Reaches around pass path base (arms.render ++ k) s arms.leftover.render k
          (Agrees around world d outer)
  | .endif, _, _, k, hs => reaches_endif hs hbase
  | .otherwise body, h, s, k, hs => by
    have helse : Reaches around pass path base
        ([.lit TokenId.elseBranch] ++ (body.render ++ (Arms.endif.render ++ k))) s
        (hide ([.lit TokenId.elseBranch] ++ body.render)) (Arms.endif.render ++ k)
        (Within around world d outer .closed) :=
      Reaches.dead rfl h fun index => step_else true hs hbase index _
    rw [Arms.render, List.cons_append, List.append_assoc]
    exact helse.trans fun s₁ hs₁ => reaches_endif hs₁ hbase
  | .elif test body more, h, s, k, hs => by
    rw [Arms.render, List.append_assoc, List.append_assoc]
    refine (Reaches.dead rfl h.2.1 (step_elif_taken hs hbase (h.1.branch more k))).trans
      fun s₁ hs₁ => ?_
    exact more.reaches_leftover hbase h.2.2 k hs₁

/-- A block inside a conditional leaves the standing of the conditional as it is. -/
theorem Block.reaches_inside {body : Block} {d : Dictionary} {outer : List Branch}
    {standing : Standing} {s : PassState σ}
    (hbody : ∀ {stack : List Branch} (k : List Token), Agrees around world d stack s →
      base ≤ stack.length →
        Reaches around pass path base (body.render ++ k) s
          (body.reduce world pass (!stack.isEmpty) d).1.render k
          (Agrees around world (body.reduce world pass (!stack.isEmpty) d).2 stack))
    (hs : Within around world d outer standing s) (hbase : base ≤ outer.length)
    (k : List Token) :
    Reaches around pass path base (body.render ++ k) s (body.reduce world pass true d).1.render k
      (Within around world (body.reduce world pass true d).2 outer standing) := by
  obtain ⟨top, hstanding, ha⟩ := hs
  intro index
  obtain ⟨index', s', hleads, ha'⟩ := hbody k ha (Nat.le_succ_of_le hbase) index
  exact ⟨index', s', hleads, top, hstanding, ha'⟩

mutual

/-- **A pass over a block** leaves its residue, and the macros that the tree says.  What is open
before the block is open behind it. -/
theorem Block.reaches_reduce : (b : Block) → b.Readable →
    ∀ {d : Dictionary} {stack : List Branch} {s : PassState σ} (k : List Token),
      Agrees around world d stack s → base ≤ stack.length →
        Reaches around pass path base (b.render ++ k) s
          (b.reduce world pass (!stack.isEmpty) d).1.render k
          (Agrees around world (b.reduce world pass (!stack.isEmpty) d).2 stack)
  | .empty, _, d, stack, s, k, ha, hbase => Reaches.refl ha
  | .word w, _, d, stack, s, k, ha, hbase => by
    rw [Block.reduce, Block.render_ofOrdinary]
    exact reaches_word ha w k
  | .hidden text, h, d, stack, s, k, ha, hbase => reaches_hidden ha h.1 h.2 k
  | .define late name body, _, d, stack, s, k, ha, hbase => reaches_define ha late name body k
  | .seq first second, h, d, stack, s, k, ha, hbase => by
    rw [Block.render, List.append_assoc]
    exact (first.reaches_reduce h.1 _ ha hbase).trans fun s₁ hs₁ =>
      second.reaches_reduce h.2 k hs₁ hbase
  | .conditional head body arms, h, d, stack, s, k, ha, hbase => by
    have hk := h.1.branch arms k
    rw [Block.render, List.append_assoc, List.append_assoc]
    cases hdeferred : head.isDeferred pass with
    | true =>
      -- Nothing is decided, so every branch is gone through, one after the other.
      rw [Block.reduce_deferred hdeferred]
      refine (reaches_head_deferred ha hdeferred hk).trans fun s₁ hs₁ => ?_
      refine (Block.reaches_inside (body.reaches_reduce h.2.1) hs₁ hbase _).trans fun s₂ hs₂ => ?_
      exact arms.reaches_defer h.2.2 k hs₂ hbase
    | false =>
      cases hopens : world.opens pass d head with
      | true =>
        rw [Block.reduce_taken hdeferred hopens]
        refine (Reaches.live hopens (step_head ha hdeferred hk)).trans fun s₁ hs₁ => ?_
        rw [hopens] at hs₁
        refine (Block.reaches_inside (body.reaches_reduce h.2.1) hs₁ hbase _).trans
          fun s₂ hs₂ => ?_
        exact arms.reaches_leftover hbase h.2.2 k hs₂
      | false =>
        rw [Block.reduce_dead hdeferred hopens]
        refine (Reaches.dead hopens h.2.1 (step_head ha hdeferred hk)).trans fun s₁ hs₁ => ?_
        rw [hopens] at hs₁
        exact arms.reaches_reduce h.2.2 k hs₁ hbase

/-- A pass over the arms of a conditional of which no branch was taken. -/
theorem Arms.reaches_reduce : (arms : Arms) → arms.Readable →
    ∀ {d : Dictionary} {outer : List Branch} {s : PassState σ} (k : List Token),
      Within around world d outer .seeking s → base ≤ outer.length →
        Reaches around pass path base (arms.render ++ k) s
          (arms.reduce world pass d).1.render k
          (Agrees around world (arms.reduce world pass d).2 outer)
  | .endif, _, d, outer, s, k, hs, hbase => reaches_endif hs hbase
  | .otherwise body, h, d, outer, s, k, hs, hbase => by
    have helse : Reaches around pass path base
        ([.lit TokenId.elseBranch] ++ (body.render ++ ([.lit TokenId.endif] ++ k))) s
        (hide [.lit TokenId.elseBranch]) (body.render ++ ([.lit TokenId.endif] ++ k))
        (Within around world d outer .taken) :=
      Reaches.live rfl fun index => step_else false hs hbase index _
    rw [Arms.render, List.cons_append, List.append_assoc]
    refine helse.trans fun s₁ hs₁ => ?_
    refine (Block.reaches_inside (body.reaches_reduce h) hs₁ hbase _).trans fun s₂ hs₂ => ?_
    exact reaches_endif hs₂ hbase
  | .elif test body more, h, d, outer, s, k, hs, hbase => by
    have hk := h.1.branch more k
    rw [Arms.render, List.append_assoc, List.append_assoc]
    cases hholds : world.holds pass d test with
    | true =>
      rw [Arms.reduce_taken hholds]
      refine (Reaches.live hholds (step_elif_seeking hs hbase hk)).trans fun s₁ hs₁ => ?_
      rw [hholds] at hs₁
      refine (Block.reaches_inside (body.reaches_reduce h.2.1) hs₁ hbase _).trans
        fun s₂ hs₂ => ?_
      exact more.reaches_leftover hbase h.2.2 k hs₂
    | false =>
      rw [Arms.reduce_dead hholds]
      refine (Reaches.dead hholds h.2.1 (step_elif_seeking hs hbase hk)).trans fun s₁ hs₁ => ?_
      rw [hholds] at hs₁
      exact more.reaches_reduce h.2.2 k hs₁ hbase

/-- A pass over the arms of a conditional that it does not decide. -/
theorem Arms.reaches_defer : (arms : Arms) → arms.Readable →
    ∀ {d : Dictionary} {outer : List Branch} {s : PassState σ} (k : List Token),
      Within around world d outer .deferred s → base ≤ outer.length →
        Reaches around pass path base (arms.render ++ k) s
          (arms.defer world pass d).1.render k
          (Agrees around world (arms.defer world pass d).2 outer)
  | .endif, _, d, outer, s, k, hs, hbase => reaches_endif hs hbase
  | .otherwise body, h, d, outer, s, k, hs, hbase => by
    rw [Arms.render, List.cons_append, List.append_assoc]
    refine (reaches_else_deferred hs hbase).trans fun s₁ hs₁ => ?_
    refine (Block.reaches_inside (body.reaches_reduce h) hs₁ hbase _).trans fun s₂ hs₂ => ?_
    exact reaches_endif hs₂ hbase
  | .elif test body more, h, d, outer, s, k, hs, hbase => by
    rw [Arms.render, List.append_assoc, List.append_assoc]
    refine (reaches_elif_deferred hs hbase (h.1.branch more k)).trans fun s₁ hs₁ => ?_
    refine (Block.reaches_inside (body.reaches_reduce h.2.1) hs₁ hbase _).trans fun s₂ hs₂ => ?_
    exact more.reaches_defer h.2.2 k hs₂ hbase

end

end Blocks

end EffectScript
