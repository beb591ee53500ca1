import Mathlib.Data.Finset.Card
import Mathlib.Order.WellFounded
import EffectScript.Proofs.Moments
import EffectScript.Proofs.TreeSemantics
import EffectScript.Storage.Library

/-!
# Files inside each other

A file may include others, itself among them.  Nothing in the text of the files keeps a pass from
going on for ever; what does is that a name is not entered while it is still being included.

Take a resolver that has files for finitely many names, whatever those files include
(`Resolver.Stocks`).  The names of the open files are on the path of the innermost one, they differ,
and the resolver knows all of them (`WellNested`).  So there are at most as many files inside each
other as there are names.

That a pass comes to its end is shown for its moves, one after the other, where no bound is built in
(`acc_of_outer`).  The induction is on the names that are not yet on the path, and inside it on what
is left of the innermost file.  Leaving a file leads back to a longer text than that of the file, so
the files around it are a hypothesis of the induction and not a part of its measure.

A call does take a number of levels that it allows.  It never runs out of them: where a call fails,
one of its moments gives up by itself (`givesUp_of_process`).

Main statement: `inclusion_terminates`.
-/

namespace EffectScript

variable {σ : Type}

/-! ## 1. Resolvers with finitely many names -/

/-- A resolver has files for no other names than these, as long as its state is good, which it
stays, and it allows for as many files inside each other. -/
structure Resolver.Stocks (r : Resolver σ) (names : Finset Bytes) (good : σ → Prop) : Prop where
  keeps : ∀ name source, good source → good (r.resolve name source).source
  named : ∀ name source file, good source → (r.resolve name source).answer = .ok file → name ∈ names
  room : ∀ source, good source → names.card ≤ r.capacity source

/-- A library that finds no source among its files: it has the bins in memory and no others. -/
def Library.IsClosed (lib : Library) : Prop := ∀ name, ∃ c, lib.source name = .error c

/-- A library that sees directories only is closed. -/
theorem Library.isClosed_of_directories {lib : Library}
    (h : ∀ entry ∈ lib.files.nodes, entry.2 = .directory) : lib.IsClosed := by
  have hnode : ∀ location node, lib.files.node? location = some node → node = .directory := by
    intro location node hnode
    unfold FileTree.node? at hnode
    split at hnode
    · exact (Option.some.inj hnode).symm
    · exact h _ (mem_of_lookup hnode)
  have hfile : ∀ path, lib.files.isFile path = false := by
    intro path
    unfold FileTree.isFile FileTree.stat
    cases lib.files.locate path with
    | error d => rfl
    | ok location =>
      cases hlocation : lib.files.node? location with
      | none => simp only [hlocation]
      | some node =>
        obtain rfl := hnode location node hlocation
        simp only [hlocation]
  intro name
  have hpath : lib.sourcePath? name = none := by
    unfold sourcePath?
    rw [Option.map_eq_none_iff, List.find?_eq_none]
    intro path _
    rw [hfile]
    decide
  exact ⟨_, by rw [source, hpath]⟩

/-- **A closed library has files for the names of its bins**, and being asked changes nothing. -/
theorem Library.stocks {lib : Library} (h : lib.IsClosed) :
    Library.resolver.Stocks (lib.bins.map Prod.fst).toFinset (· = lib) := by
  have hfind : ∀ name, (lib.find name).library = lib ∧
      ∀ b, (lib.find name).answer = .ok b → lib.inMemory? name = some b := by
    intro name
    unfold find
    cases hmemory : lib.inMemory? name with
    | some b =>
      refine ⟨rfl, ?_⟩
      rintro _ ⟨⟩
      rfl
    | none =>
      obtain ⟨c, hc⟩ := h name
      rw [hc]
      refine ⟨rfl, ?_⟩
      rintro _ ⟨⟩
  constructor
  · rintro name lib rfl
    exact (hfind name).1
  · rintro name lib file rfl hfile
    cases hanswer : (lib.find name).answer with
    | error e =>
      simp only [resolver, hanswer] at hfile
      cases hfile
    | ok b =>
      have hmem := mem_of_lookup ((hfind name).2 b hanswer)
      exact List.mem_toFinset.mpr (List.mem_map_of_mem hmem)
  · rintro lib rfl
    have hcard := (lib.bins.map Prod.fst).toFinset_card_le
    rw [List.length_map] at hcard
    simp only [resolver]
    omega

/-! ## 2. Steps into a file -/

theorem PassResult.prepend_eq_error {xs : List Token} {r : PassResult σ} {e : Error}
    {s : PassState σ} (h : r.prepend xs = (.error e, s)) : r = (.error e, s) := by
  obtain ⟨result, t⟩ := r
  cases result with
  | error e' => exact h
  | ok out => cases h

section Steps

variable {around : Surroundings σ} {pass : Pass} {path : List Bytes} {base index used : Nat}
  {first token : Token} {rest emitted file : List Token} {name : Bytes} {s s' : PassState σ}

/-- A name is not entered while it is being included. -/
theorem fresh_of_enter
    (h : step around pass path base index first rest s = .enter used emitted name file s') :
    name ∉ path := by
  obtain ⟨token, after, resolver, included, rfl, rfl, -, -, hresolver, -, -, -⟩ := step_eq_enter h
  change includeStep around path (.lit TokenId.includeFile :: token :: after) s = _ at h
  simp only [includeStep, List.tail_cons, hresolver, Step.failWith] at h
  split at h
  · cases h
  · split at h
    · cases h
    · rename_i hfresh
      split at h
      · cases h
      · cases h
        simpa using hfresh

/-- A name that is being included is refused. -/
theorem step_include_cycle {r : Resolver σ} (hr : around.resolver = some r)
    (hname : s.table.spelling? token.id = some name) (hpath : name ∈ path) :
    step around pass path base index (.lit TokenId.includeFile) (token :: rest) s
      = .failWith (.includeCycle name) s := by
  change includeStep around path (.lit TokenId.includeFile :: token :: rest) s = _
  have hcontains : path.contains name = true := by simpa using hpath
  simp only [includeStep, List.tail_cons, hname, hr, hcontains, if_true]

/-- A name that is not being included is entered, whatever was included before. -/
theorem step_include_fresh {r : Resolver σ} (hr : around.resolver = some r)
    (hname : s.table.spelling? token.id = some name) (hpath : name ∉ path) {included : Included}
    (hfile : (r.resolve name s.source).answer = .ok included) :
    ∃ s', step around pass path base index (.lit TokenId.includeFile) (token :: rest) s
      = .enter 2 (hide [.lit TokenId.includeFile, token]) name included.tokens s' := by
  have hcontains : path.contains name = false := by simpa using hpath
  refine ⟨{ s with
    log := s.log ++ (r.resolve name s.source).log
    source := (r.resolve name s.source).source
    table := s.table.merge included.table }, ?_⟩
  change includeStep around path (.lit TokenId.includeFile :: token :: rest) s = _
  simp only [includeStep, List.tail_cons, hname, hr, hcontains, hfile, Bool.false_eq_true, if_false]
  rfl

end Steps

/-! ## 3. Where a pass gives up -/

/-- A pass can go no further: a step fails, or a file ends inside a conditional that it opened. -/
inductive GivesUp (around : Surroundings σ) (pass : Pass) : Moment σ → Cause → Prop
  | fail {path : List Bytes} {base index : Nat} {first : Token} {rest : List Token}
      {outer : List OpenFile} {s s' : PassState σ} {e : Error}
      (hstep : step around pass path base index first rest s = .fail e s') :
      GivesUp around pass ⟨⟨path, base, index, first :: rest⟩ :: outer, s⟩ e.cause
  | unfinished {path : List Bytes} {base index : Nat} {outer : List OpenFile} {s : PassState σ}
      {b : Branch} (hend : Branch.outermostAbove? base s.branches = some b) :
      GivesUp around pass ⟨⟨path, base, index, []⟩ :: outer, s⟩ .missingEndif

/-! ## 4. The open files -/

/-- The path of a file is its name in front of the path of the file around it; the outermost has
none. -/
def Nested : List OpenFile → Prop
  | [] => True
  | [f] => f.path = []
  | f :: g :: outer => (∃ name, f.path = name :: g.path) ∧ Nested (g :: outer)

/-- The open files are those of the path of the innermost one, and their names differ and are among
the given ones. -/
structure WellNested (names : Finset Bytes) (files : List OpenFile) : Prop where
  nested : Nested files
  nodup : ∀ f ∈ files, f.path.Nodup
  named : ∀ f ∈ files, ∀ name ∈ f.path, name ∈ names

/-- Names that differ are no more than there are. -/
theorem length_le_card {names : Finset Bytes} {path : List Bytes} (hnodup : path.Nodup)
    (hnamed : ∀ name ∈ path, name ∈ names) : path.length ≤ names.card := by
  rw [← List.toFinset_card_of_nodup hnodup]
  exact Finset.card_le_card fun name hname => hnamed name (List.mem_toFinset.mp hname)

theorem Nested.length_eq {f : OpenFile} {outer : List OpenFile} (h : Nested (f :: outer)) :
    outer.length = f.path.length := by
  induction outer generalizing f with
  | nil => rw [show f.path = [] from h]; rfl
  | cons g outer ih =>
    obtain ⟨⟨name, hname⟩, hg⟩ := h
    rw [hname, List.length_cons, List.length_cons, ih hg]

theorem Nested.tail {f : OpenFile} {outer : List OpenFile} (h : Nested (f :: outer)) :
    Nested outer := by
  cases outer with
  | nil => trivial
  | cons g outer => exact h.2

/-- Another place in the innermost file. -/
theorem Nested.replace {f f' : OpenFile} {outer : List OpenFile} (h : Nested (f :: outer))
    (hpath : f'.path = f.path) : Nested (f' :: outer) := by
  cases outer with
  | nil => exact hpath.trans h
  | cons g outer =>
    obtain ⟨⟨name, hname⟩, hg⟩ := h
    exact ⟨⟨name, hpath.trans hname⟩, hg⟩

/-- **As many files are inside each other as there are names, at most.** -/
theorem WellNested.length_le {names : Finset Bytes} {files : List OpenFile}
    (h : WellNested names files) : files.length ≤ names.card + 1 := by
  cases files with
  | nil => exact Nat.zero_le _
  | cons f outer =>
    have hlength := h.nested.length_eq
    have hcard := length_le_card (h.nodup f List.mem_cons_self) (h.named f List.mem_cons_self)
    rw [List.length_cons]
    omega

section Moves

variable {around : Surroundings σ} {pass : Pass} {r : Resolver σ} {names : Finset Bytes}
  {good : σ → Prop} {a b : Moment σ} {events story : List Event} {emitted out : List Token}

/-- A step that stays in its file asks the resolver for nothing. -/
theorem good_of_next {path : List Bytes} {base index used : Nat} {first : Token}
    {rest : List Token} {s s' : PassState σ} (hs : good s.source)
    (h : step around pass path base index first rest s = .next used emitted s') :
    good s'.source := (step_deed h).source_eq ▸ hs

/-- The name of a file that is entered is one of the names, and the resolver's state stays good. -/
theorem named_of_enter (hr : around.resolver = some r) (hstocks : r.Stocks names good)
    {path : List Bytes} {base index used : Nat} {first : Token} {rest file : List Token}
    {name : Bytes} {s s' : PassState σ} (hs : good s.source)
    (h : step around pass path base index first rest s = .enter used emitted name file s') :
    name ∈ names ∧ good s'.source := by
  obtain ⟨token, after, r', included, -, -, -, -, hr', hfound, -, rfl⟩ := step_eq_enter h
  obtain rfl : r = r' := Option.some.inj (hr.symm.trans hr')
  exact ⟨hstocks.named name s.source included hs hfound, hstocks.keeps name s.source hs⟩

/-- Such a resolver stays good. -/
theorem Resolver.Stocks.keepsGood (hstocks : r.Stocks names good) (hr : around.resolver = some r) :
    around.Keeps good := by
  intro r' hr'
  obtain rfl : r = r' := Option.some.inj (hr.symm.trans hr')
  exact hstocks.keeps

/-- The open files stay well nested in every move. -/
theorem Moves.wellNested (hr : around.resolver = some r) (hstocks : r.Stocks names good)
    (h : Moves around pass a events emitted b) (hgood : good a.state.source)
    (ha : WellNested names a.files) : WellNested names b.files := by
  cases h with
  | next hstep =>
    obtain ⟨hnodup, hnodups⟩ := List.forall_mem_cons.mp ha.nodup
    obtain ⟨hnamed, hnameds⟩ := List.forall_mem_cons.mp ha.named
    exact ⟨ha.nested.replace rfl, List.forall_mem_cons.mpr ⟨hnodup, hnodups⟩,
      List.forall_mem_cons.mpr ⟨hnamed, hnameds⟩⟩
  | enter hstep =>
    obtain ⟨hnodup, hnodups⟩ := List.forall_mem_cons.mp ha.nodup
    obtain ⟨hnamed, hnameds⟩ := List.forall_mem_cons.mp ha.named
    have hfresh := fresh_of_enter hstep
    have hname := (named_of_enter hr hstocks hgood hstep).1
    refine ⟨⟨⟨_, rfl⟩, ha.nested.replace rfl⟩, ?_, ?_⟩
    · exact List.forall_mem_cons.mpr ⟨List.nodup_cons.mpr ⟨hfresh, hnodup⟩,
        List.forall_mem_cons.mpr ⟨hnodup, hnodups⟩⟩
    · exact List.forall_mem_cons.mpr ⟨List.forall_mem_cons.mpr ⟨hname, hnamed⟩,
        List.forall_mem_cons.mpr ⟨hnamed, hnameds⟩⟩
  | leave hend =>
    exact ⟨ha.nested.tail, fun f hf => ha.nodup f (List.mem_cons_of_mem _ hf),
      fun f hf => ha.named f (List.mem_cons_of_mem _ hf)⟩

/-- **The open files are well nested in every run.** -/
theorem Runs.wellNested (hr : around.resolver = some r) (hstocks : r.Stocks names good)
    (h : Runs around pass a story out b) (hgood : good a.state.source)
    (ha : WellNested names a.files) : WellNested names b.files := by
  have hboth := h.invariant (fun m _ _ => good m.state.source ∧ WellNested names m.files)
    (fun hm hmove => ⟨hmove.keepsGood (hstocks.keepsGood hr) hm.1,
      hmove.wellNested hr hstocks hm.1 hm.2⟩) ⟨hgood, ha⟩
  exact hboth.2

/-! ## 5. No run is endless -/

/-- A moment follows another. -/
def Follows (around : Surroundings σ) (pass : Pass) (b a : Moment σ) : Prop :=
  ∃ events emitted, Moves around pass a events emitted b

/-- A moment in a file, when no run is endless that starts where the file is left.  `left` bounds
the number of names that are not yet on the path. -/
theorem acc_of_outer (hr : around.resolver = some r) (hstocks : r.Stocks names good) (left : Nat)
    {path : List Bytes} (hleft : names.card ≤ path.length + left) (hnodup : path.Nodup)
    (hnamed : ∀ name ∈ path, name ∈ names) {outer : List OpenFile}
    (houter : ∀ s : PassState σ, good s.source → Acc (Follows around pass) ⟨outer, s⟩)
    (base index : Nat) (tokens : List Token) (s : PassState σ) (hs : good s.source) :
    Acc (Follows around pass) ⟨⟨path, base, index, tokens⟩ :: outer, s⟩ := by
  induction left using Nat.strongRecOn generalizing path outer base index tokens s with
  | ind left ihleft =>
  induction hn : tokens.length using Nat.strongRecOn generalizing base index tokens s with
  | ind n ihtokens =>
  have hrest : ∀ {first : Token} {rest : List Token} (used : Nat), tokens = first :: rest →
      (rest.drop (used - 1)).length < n := by
    rintro first rest used rfl
    simp only [List.length_drop, List.length_cons] at hn ⊢
    omega
  refine Acc.intro _ ?_
  rintro b ⟨events, emitted, hmove⟩
  cases hmove with
  | next hstep =>
    exact ihtokens _ (hrest _ rfl) _ _ _ _ (good_of_next hs hstep) rfl
  | enter hstep =>
    obtain ⟨hname, hs'⟩ := named_of_enter hr hstocks hs hstep
    have hnodup' := List.nodup_cons.mpr ⟨fresh_of_enter hstep, hnodup⟩
    have hnamed' := List.forall_mem_cons.mpr ⟨hname, hnamed⟩
    have hcard := length_le_card hnodup' hnamed'
    rw [List.length_cons] at hcard
    -- One name less is left, and what is left of the file around is shorter.
    refine ihleft (left - 1) (by omega) ?_ hnodup' hnamed' ?_ _ _ _ _ hs'
    · rw [List.length_cons]
      omega
    · intro t ht
      exact ihtokens _ (hrest _ rfl) _ _ _ t ht rfl
  | leave hend => exact houter s hs

/-- A pass that comes to no open file is at its end. -/
theorem acc_closed (around : Surroundings σ) (pass : Pass) (s : PassState σ) :
    Acc (Follows around pass) ⟨[], s⟩ := by
  refine Acc.intro _ ?_
  rintro b ⟨events, emitted, hmove⟩
  cases hmove

/-- What is accessible starts no endless run. -/
theorem not_endless (ha : Acc (Follows around pass) a) (m : Nat → Moment σ) (hm : m 0 = a) :
    ¬ ∀ n, Follows around pass (m (n + 1)) (m n) := by
  induction ha generalizing m with
  | intro a _ ih =>
    intro hfollows
    subst hm
    exact ih (m 1) (hfollows 0) (fun n => m (n + 1)) rfl fun n => hfollows (n + 1)

/-! ## 6. A call does not run out of levels -/

/-- Where a walk fails a moment gives up, when that holds of the files it enters. -/
theorem givesUp_of_walk (hr : around.resolver = some r) (hstocks : r.Stocks names good)
    {path : List Bytes} {levels : Nat}
    (henter : ∀ {file : Bytes} {inside : List Token} {s s' : PassState σ} {e : Error},
      file ∉ path → file ∈ names → good s.source →
      process around pass levels (file :: path) file inside s = (.error e, s') → ∀ outer,
        ∃ story out m, Runs around pass ⟨⟨file :: path, s.branches.length, 0, inside⟩ :: outer, s⟩
          story out m ∧ GivesUp around pass m e.cause)
    {name : Bytes} {base index : Nat} {tokens : List Token} {s s' : PassState σ} {e : Error}
    (hs : good s.source)
    (h : walk around pass
      (fun file inside s => process around pass levels (file :: path) file inside s)
      path name base index tokens s = (.error e, s'))
    (outer : List OpenFile) :
    ∃ story out m, Runs around pass ⟨⟨path, base, index, tokens⟩ :: outer, s⟩ story out m ∧
      GivesUp around pass m e.cause := by
  induction hn : tokens.length using Nat.strongRecOn generalizing index tokens s e with
  | ind n ih =>
  cases tokens with
  | nil =>
    rw [walk, finish] at h
    split at h
    · cases h
    · rename_i b hend
      cases h
      exact ⟨_, _, _, .refl _, .unfinished hend⟩
  | cons first rest =>
    have hlen : ∀ used, (rest.drop (used - 1)).length < n := by
      intro used
      simp only [List.length_drop, List.length_cons] at hn ⊢
      omega
    rw [walk] at h
    split at h
    · rename_i e' s₁ hstep
      cases h
      have hgives : GivesUp around pass ⟨⟨path, base, index, first :: rest⟩ :: outer, s⟩ e'.cause :=
        .fail hstep
      exact ⟨_, _, _, .refl _, hgives⟩
    · rename_i used emitted s₁ hstep
      have hmore := PassResult.prepend_eq_error h
      obtain ⟨story, out, m, hruns, hm⟩ := ih _ (hlen used) (good_of_next hs hstep) hmore rfl
      exact ⟨_, _, m, .move (.next hstep) hruns, hm⟩
    · rename_i used emitted file inside s₁ hstep
      obtain ⟨hname, hs₁⟩ := named_of_enter hr hstocks hs hstep
      split at h
      · rename_i e' s₂ hinside
        cases h
        obtain ⟨story, out, m, hruns, hm⟩ := henter (fresh_of_enter hstep) hname hs₁ hinside
          (⟨path, base, index + used, rest.drop (used - 1)⟩ :: outer)
        exact ⟨_, _, m, .move (.enter hstep) hruns, hm⟩
      · rename_i inner s₂ hinside
        have hmore := PassResult.prepend_eq_error h
        obtain ⟨storyInside, hruns⟩ := runs_of_process hinside
          (⟨path, base, index + used, rest.drop (used - 1)⟩ :: outer)
        have hs₂ : good s₂.source := hruns.keepsGood (hstocks.keepsGood hr) hs₁
        obtain ⟨story, out, m, hmoreRuns, hm⟩ := ih _ (hlen used) hs₂ hmore rfl
        exact ⟨_, _, m, .move (.enter hstep) (hruns.trans hmoreRuns), hm⟩

/-- **Where a call fails a moment gives up**: the levels that are allowed never run out, when there
is one more than the names that are not on the path. -/
theorem givesUp_of_process (hr : around.resolver = some r) (hstocks : r.Stocks names good)
    {levels : Nat} {path : List Bytes} (hroom : names.card < path.length + levels)
    (hnodup : path.Nodup) (hnamed : ∀ name ∈ path, name ∈ names) {name : Bytes}
    {tokens : List Token} {s s' : PassState σ} {e : Error} (hs : good s.source)
    (h : process around pass levels path name tokens s = (.error e, s')) (outer : List OpenFile) :
    ∃ story out m, Runs around pass ⟨⟨path, s.branches.length, 0, tokens⟩ :: outer, s⟩ story out m ∧
      GivesUp around pass m e.cause := by
  induction levels generalizing path name tokens s s' e outer with
  | zero =>
    have hcard := length_le_card hnodup hnamed
    omega
  | succ levels ih =>
    refine givesUp_of_walk hr hstocks ?_ hs h outer
    intro file inside s s' e hfresh hname hs hfile outer
    refine ih ?_ (List.nodup_cons.mpr ⟨hfresh, hnodup⟩)
      (List.forall_mem_cons.mpr ⟨hname, hnamed⟩) hs hfile outer
    rw [List.length_cons]
    omega

end Moves

/-! ## 7. Calls -/

/-- **Including comes to an end.**  A resolver has files for finitely many names, and they may
include each other and themselves.  Whatever the input and the pass, a call makes no endless
sequence of moves.  It either comes to a moment at which no file is open, or to one that gives up by
itself, for the cause that the call reports.  In every moment on the way the open files have
different names, so there are at most as many of them inside each other as there are names.  A name
that is being included is refused as a cycle; every other name that the resolver has a file for is
entered, however often it was included before. -/
theorem inclusion_terminates {p : Preprocessor σ} {r : Resolver σ} {names : Finset Bytes}
    {good : σ → Prop} (hr : p.around.resolver = some r) (hstocks : r.Stocks names good)
    (pass : Pass)
    (tokens : List Token) (table : SpellingTable) {source : σ} (hsource : good source) :
    (∀ m : Nat → Moment σ, m 0 = p.startMoment pass tokens table source →
      ¬ ∀ n, ∃ events emitted, Moves p.around pass (m n) events emitted (m (n + 1))) ∧
    (match (p.run pass.number tokens table source).result with
      | .ok out => ∃ story s,
          Runs p.around pass (p.startMoment pass tokens table source) story out ⟨[], s⟩
      | .error e => ∃ story out m,
          Runs p.around pass (p.startMoment pass tokens table source) story out m ∧
            GivesUp p.around pass m e.cause) ∧
    ∀ story out m, Runs p.around pass (p.startMoment pass tokens table source) story out m →
      WellNested names m.files ∧ m.files.length ≤ names.card + 1 ∧
      ∀ path base index token rest outer name,
        m.files = ⟨path, base, index, .lit TokenId.includeFile :: token :: rest⟩ :: outer →
        m.state.table.spelling? token.id = some name →
          (name ∈ path → GivesUp p.around pass m (.includeCycle name)) ∧
          (name ∉ path → ∀ file, (r.resolve name m.state.source).answer = .ok file →
            ∃ inside s, Moves p.around pass m [] (hide [.lit TokenId.includeFile, token])
              ⟨⟨name :: path, inside, 0, file.tokens⟩ :: ⟨path, base, index + 2, rest⟩ :: outer,
                s⟩) := by
  have hstart : WellNested names (p.startMoment pass tokens table source).files :=
    ⟨rfl, List.forall_mem_singleton.mpr List.nodup_nil, List.forall_mem_singleton.mpr (by simp)⟩
  refine ⟨?_, ?_, ?_⟩
  · intro m hm
    refine not_endless ?_ m hm
    exact acc_of_outer hr hstocks names.card (Nat.le_add_left _ _) List.nodup_nil (by simp)
      (fun s _ => acc_closed _ _ s) 0 0 tokens _ hsource
  · have hroom : names.card < ([] : List Bytes).length + p.levels table source := by
      have hcapacity := hstocks.room source hsource
      simp only [Preprocessor.levels, hr, List.length_nil]
      omega
    split
    · rename_i out hout
      obtain ⟨story, s, hruns, -⟩ := Preprocessor.runs_of_run hout
      exact ⟨story, s, hruns⟩
    · rename_i e he
      simp only [Preprocessor.run, Preprocessor.ofNumber?_number] at he
      exact givesUp_of_process hr hstocks hroom List.nodup_nil (by simp) hsource
        (Prod.ext he rfl) []
  · intro story out m hruns
    have hnested := hruns.wellNested hr hstocks hsource hstart
    refine ⟨hnested, hnested.length_le, ?_⟩
    obtain ⟨files, s⟩ := m
    rintro path base index token rest outer name rfl hname
    constructor
    · intro hpath
      exact .fail (step_include_cycle hr hname hpath)
    · intro hpath file hfile
      obtain ⟨s', hstep⟩ := step_include_fresh hr hname hpath hfile
      exact ⟨_, s', .enter hstep⟩

/-- Two bins that include each other: no run goes on for ever, and no moment has more than the input
and the two of them open. -/
theorem inclusion_terminates_mutual :
    let a : Bin := ⟨[0x61], 0, 0, ⟨[⟨1908338681, [0x62]⟩]⟩, [.lit 1, .lit 1908338681]⟩
    let b : Bin := ⟨[0x62], 0, 0, ⟨[⟨3904355907, [0x61]⟩]⟩, [.lit 1, .lit 3904355907]⟩
    let lib : Library := ⟨[], [], .little, [([0x61], a), ([0x62], b)], ⟨[], []⟩⟩
    let p : Preprocessor Library :=
      ⟨⟨.empty, fun _ => none, some Library.resolver⟩, .empty, .empty, .empty, .empty, .empty, []⟩
    let start := p.startMoment .first a.tokens a.table lib
    (∀ m : Nat → Moment Library, m 0 = start →
      ¬ ∀ n, ∃ events emitted, Moves p.around .first (m n) events emitted (m (n + 1))) ∧
    ∀ story out m, Runs p.around .first start story out m → m.files.length ≤ 3 := by
  intro a b lib p start
  have hclosed : lib.IsClosed := Library.isClosed_of_directories (by rintro _ ⟨⟩)
  obtain ⟨hends, -, hmoments⟩ := inclusion_terminates (p := p) rfl (Library.stocks hclosed) .first
    a.tokens a.table rfl
  exact ⟨hends, fun story out m hruns => (hmoments story out m hruns).2.1⟩

end EffectScript
