import EffectScript.Proofs.Finding
import EffectScript.Proofs.Provenance

/-!
# Spellings of compiled effects

The tokens of an effect come from its own file, from the files it includes, at any depth, and from
the seeds, directly or through the bodies of macros; the spellings come in with the files, when they
are entered, and with the seeds, when a pass starts.  Whenever a token is put out, a spelling of it
has come in before it, and a merge spells what either table spells: at the end the table is in order
and spells every token that either pass left.

The library is one whose bins are read from sources (`Library.Gives`).

Main statement: `compile_spelled`.
-/

namespace EffectScript

variable {σ : Type}

/-! ## 1. Compiled effects -/

/-- What is known of an answer says that there is one. -/
theorem exists_ok_of_map {ε α β : Type} {answer : Except ε α} {f : α → β} {known : β}
    (h : answer.map f = .ok known) : ∃ a, answer = .ok a ∧ f a = known := by
  cases answer with
  | error e => cases h
  | ok a => exact ⟨a, rfl, Except.ok.inj h⟩

/-- The preprocessor after a call that ended in a state. -/
def Preprocessor.leftBy (p : Preprocessor σ) (s : PassState σ) : Preprocessor σ :=
  { p with early := s.early, late := s.late, branches := s.branches }

/-- **An effect compiles by two runs**, the second of which starts with what the first left. -/
theorem Effect.runs_of_compile {lib : Library} {platform : Option Platform} {name : Bytes}
    {runtime : Bytes → Option Int} {seeds : List Seed} {e : Effect}
    (h : (Effect.compile lib platform name runtime seeds).answer = .ok e) :
    ∃ b p s₁ s₂ story₁ story₂, (lib.find name).answer = .ok b ∧
      Preprocessor.build platform runtime (some Library.resolver) seeds = .ok p ∧
      Runs p.around .first (p.startMoment .first b.tokens b.table (lib.find name).library)
        story₁ e.first
        ⟨[], s₁⟩ ∧
      Runs p.around .second ((p.leftBy s₁).startMoment .second e.first s₁.table s₁.source)
        story₂ e.second
        ⟨[], s₂⟩ ∧
      e.table = s₂.table := by
  unfold compile at h
  dsimp only at h
  split at h
  · cases h
  · rename_i b hfound
    split at h
    · cases h
    · rename_i p hbuild
      unfold ofBin at h
      dsimp only at h
      split at h
      · cases h
      · rename_i first hfirst
        change (p.run Pass.first.number _ _ _).result = _ at hfirst
        obtain ⟨story₁, s₁, hruns₁, hrun₁⟩ := Preprocessor.runs_of_run hfirst
        change p.run 0 b.tokens b.table (lib.find name).library = _ at hrun₁
        rw [hrun₁] at h
        split at h
        · cases h
        · rename_i second hsecond
          change (Preprocessor.run _ Pass.second.number _ _ _).result = _ at hsecond
          obtain ⟨story₂, s₂, hruns₂, hrun₂⟩ := Preprocessor.runs_of_run hsecond
          cases h
          refine ⟨b, p, s₁, s₂, story₁, story₂, hfound, hbuild, hruns₁, hruns₂, ?_⟩
          exact congrArg Preprocessor.Report.table hrun₂

/-! ## 2. Tokens that a table spells -/

namespace SpellingTable

variable {a b : SpellingTable} {id : TokenId} {t : Token}

/-- The merge spells what either table spells. -/
theorem isSome_spelling?_merge (ha : a.isSorted) (hb : b.isSorted) (id : TokenId) :
    ((a.merge b).spelling? id).isSome = ((a.spelling? id).isSome || (b.spelling? id).isSome) := by
  unfold spelling? lookup?
  split
  · simp
  · rw [find?_merge ha hb]
    cases b.find? id <;> simp

/-- The token has a spelling, or is a mark or the end of a definition, which have none. -/
def Spells (table : SpellingTable) (t : Token) : Prop :=
  t.id = TokenId.eol ∨ (table.spelling? t.id).isSome

theorem Spells.merge_left (h : a.Spells t) (ha : a.isSorted) (hb : b.isSorted) :
    (a.merge b).Spells t := by
  refine h.imp_right fun hsome => ?_
  rw [isSome_spelling?_merge ha hb, hsome, Bool.true_or]

theorem Spells.merge_right (h : b.Spells t) (ha : a.isSorted) (hb : b.isSorted) :
    (a.merge b).Spells t := by
  refine h.imp_right fun hsome => ?_
  rw [isSome_spelling?_merge ha hb, hsome, Bool.or_true]

/-- A table that has all entries of another spells what that one spells. -/
theorem Extends.spells {ids : List TokenId} (h : Extends a ids b) (ha : a.isSorted)
    (ht : a.Spells t) : b.Spells t := by
  refine ht.imp_right fun hsome => ?_
  unfold spelling? lookup? at hsome ⊢
  split
  · simp_all
  · rename_i hreserved
    rw [if_neg hreserved, Option.isSome_map, find?_eq ha, List.find?_isSome] at hsome
    obtain ⟨e, he, hid⟩ := hsome
    rw [Option.isSome_map, find?_eq (h.isSorted ha), List.find?_isSome]
    exact ⟨e, h.entries he, hid⟩

end SpellingTable

/-! ## 3. What a step makes of tokens of a kind -/

/-- Tokens of a kind only. -/
def AllOf (Q : Token → Prop) (tokens : List Token) : Prop := ∀ t ∈ tokens, Q t

theorem AllOf.of_subset {Q : Token → Prop} {tokens more : List Token} (h : AllOf Q tokens)
    (hsub : more ⊆ tokens) : AllOf Q more := fun t ht => h t (hsub ht)

/-- Hiding adds marks only. -/
theorem AllOf.hide {Q : Token → Prop} {text : List Token} (hmark : ∀ t, t.id = TokenId.eol → Q t)
    (h : AllOf Q text) : AllOf Q (hide text) := by
  intro t ht
  cases hlit : t.isLit with
  | true => exact h t (mem_hide ht hlit)
  | false =>
    refine hmark t ?_
    cases t with
    | lit id => cases hlit
    | skipOne => rfl
    | skipOpen => rfl
    | skipClose => rfl

namespace PassState

/-- The bodies of all macros are made of tokens of a kind. -/
structure Stocked (Q : Token → Prop) (s : PassState σ) : Prop where
  early : s.early.Bodied (fun _ => True) (AllOf Q)
  late : s.late.Bodied (fun _ => True) (AllOf Q)

variable {Q Q' : Token → Prop} {s : PassState σ}

theorem Stocked.mono (h : s.Stocked Q) (hQ : ∀ t, Q t → Q' t) : s.Stocked Q' := by
  constructor
  · exact fun id hid definition hlookup t ht => hQ t (h.early id hid definition hlookup t ht)
  · exact fun id hid definition hlookup t ht => hQ t (h.late id hid definition hlookup t ht)

theorem Stocked.current (h : s.Stocked Q) (pass : Pass) :
    (s.current pass).Bodied (fun _ => True) (AllOf Q) := by
  cases pass with
  | first => exact h.early
  | second => exact h.late

theorem Stocked.enterMacro (h : s.Stocked Q) (pass : Pass) (late : Bool) (name : TokenId)
    {body : List Token} (hbody : AllOf Q body) : (s.enterMacro pass late name body).Stocked Q := by
  unfold PassState.enterMacro
  constructor
  · dsimp only
    split
    · exact h.early.define fun _ => hbody
    · exact h.early
  · dsimp only
    split
    · exact h.late
    · exact h.late.define fun _ => hbody

theorem Stocked.forget (h : s.Stocked Q) (pass : Pass) (id : TokenId) :
    (s.forget pass id).Stocked Q := by
  unfold PassState.forget
  split
  · cases pass with
    | first => exact ⟨h.early.erase id, h.late⟩
    | second => exact ⟨h.early, h.late.erase id⟩
  · split
    · exact ⟨h.early, h.late.erase id⟩
    · exact ⟨h.early, h.late⟩

theorem Stocked.replay (h : s.Stocked Q) {unit : List Token} (hunit : AllOf Q unit) :
    (replay s unit).Stocked Q := by
  unfold EffectScript.replay
  split
  · rename_i directive id inner
    split
    · refine ⟨h.early, h.late.define fun _ => hunit.of_subset fun t ht => ?_⟩
      have hinner : t ∈ inner :=
        (List.dropLast_sublist inner).subset ((List.takeWhile_sublist _).subset ht)
      simp [hinner]
    · exact h
  · exact h

end PassState

/-- **A step makes no tokens**, apart from marks and the words around a definition: what it puts
out, and what it defines, is of the kind of its text and of the macros it knows. -/
theorem Deed.stocked {pass : Pass} {first : Token} {rest emitted : List Token} {used : Nat}
    {s s' : PassState σ} (h : Deed pass first rest s used emitted s') {Q : Token → Prop}
    (hmark : ∀ t, t.id = TokenId.eol → Q t) (hlate : Q (.lit TokenId.defineLate))
    (htext : AllOf Q (first :: rest)) (hs : s.Stocked Q) : AllOf Q emitted ∧ s'.Stocked Q := by
  have htake : ∀ n, AllOf Q ((first :: rest).take n) :=
    fun n => htext.of_subset fun t ht => List.mem_of_mem_take ht
  cases h with
  | @word id _ _ hid =>
    have hword : AllOf Q [.lit id] := List.forall_mem_singleton.mpr (htext _ List.mem_cons_self)
    exact ⟨PassState.bodied_expansion pass (hs.current pass) trivial hword, hs⟩
  | ending => exact ⟨by simp [AllOf], hs⟩
  | unit hhidden =>
    refine ⟨htake _, ?_⟩
    split
    · exact hs.replay (htake _)
    · exact hs
  | @define id name late after _ hid =>
    have hbody : AllOf Q (bodyOf after) := htext.of_subset fun t ht =>
      List.mem_cons_of_mem _ (List.mem_cons_of_mem _ ((List.takeWhile_sublist _).subset ht))
    refine ⟨?_, hs.enterMacro pass late name hbody⟩
    split
    · refine .hide hmark (List.forall_mem_cons.mpr ⟨hlate, List.forall_mem_cons.mpr ⟨?_, ?_⟩⟩)
      · exact htext _ (List.mem_cons_of_mem _ List.mem_cons_self)
      · exact List.forall_mem_append.mpr ⟨hbody, List.forall_mem_singleton.mpr (hmark _ rfl)⟩
    · exact .hide hmark (htake _)
  | @undefine id name after _ hid => exact ⟨.hide hmark (htake 2), hs.forget pass name.id⟩
  | hidden branches log env => exact ⟨.hide hmark (htake _), ⟨hs.early, hs.late⟩⟩
  | shown branches => exact ⟨htake _, ⟨hs.early, hs.late⟩⟩

/-! ## 4. Both passes -/

/-- A script that was read spells its tokens. -/
theorem Script.spells_of_read {source : Bytes} {script : Script}
    (h : Script.read source = .ok script) :
    script.table.isSorted ∧ AllOf script.table.Spells script.tokens := by
  refine ⟨(Script.read_extends h).1, fun t ht => ?_⟩
  obtain ⟨id, hid, rfl⟩ := List.mem_map.mp ht
  exact Script.read_spelled h id hid

/-- A bin that was read from a source. -/
def Bin.IsRead (b : Bin) : Prop := ∃ label source, Bin.ofSource label source = .ok b

theorem Bin.IsRead.spells {b : Bin} (h : b.IsRead) :
    b.table.isSorted ∧ AllOf b.table.Spells b.tokens := by
  obtain ⟨label, source, hsource⟩ := h
  obtain ⟨script, hread, rfl⟩ := exists_script_of_ofSource hsource
  exact Script.spells_of_read hread

/-- What holds all through a pass: the table spells all tokens that are there, and those that were
put out, behind `before`. -/
structure Covered (lib : Library) (table : SpellingTable) (before : List Token) (m : Moment Library)
    (out : List Token) : Prop where
  table_eq : m.state.table = table
  isSorted : table.isSorted
  files : ∀ f ∈ m.files, AllOf table.Spells f.tokens
  stocked : m.state.Stocked table.Spells
  out : AllOf table.Spells (before ++ out)
  source : lib.Becomes m.state.source

theorem Moves.covered {lib : Library} (hlib : lib.Gives Bin.IsRead) {around : Surroundings Library}
    (haround : around.resolver = some Library.resolver) {pass : Pass} {a b : Moment Library}
    {events : List Event} {table : SpellingTable} {before out emitted : List Token}
    (ha : Covered lib table before a out) (h : Moves around pass a events emitted b) :
    ∃ table', Covered lib table' before b (out ++ emitted) := by
  obtain ⟨htable, hsorted, hfiles, hstocked, hout, hsource⟩ := ha
  have hmark : ∀ t : Token, t.id = TokenId.eol → table.Spells t := fun t ht => .inl ht
  -- Only entering a file changes the table; all else that a move puts out was there before.
  cases h with
  | @next _ _ _ used first rest _ _ _ _ hstep =>
    obtain ⟨htext, houter⟩ := List.forall_mem_cons.mp hfiles
    have hdeed := step_deed hstep
    obtain ⟨hemitted, hstocked'⟩ := hdeed.stocked hmark (.inr rfl) htext hstocked
    have hrest : rest.drop (used - 1) ⊆ first :: rest :=
      fun t ht => List.mem_cons_of_mem _ (List.mem_of_mem_drop ht)
    refine ⟨table, hdeed.table_eq.trans htable, hsorted,
      List.forall_mem_cons.mpr ⟨htext.of_subset hrest, houter⟩, hstocked', ?_, ?_⟩
    · rw [← List.append_assoc]
      exact List.forall_mem_append.mpr ⟨hout, hemitted⟩
    · rw [hdeed.source_eq]
      exact hsource
  | @enter _ _ _ _ _ _ _ _ name _ s _ hstep =>
    obtain ⟨htext, houter⟩ := List.forall_mem_cons.mp hfiles
    obtain ⟨token, after, resolver, included, rfl, rfl, rfl, rfl, hresolver, hanswer, rfl, rfl⟩ :=
      step_eq_enter hstep
    rw [haround] at hresolver
    cases hresolver
    obtain ⟨b, hfound, htokens, hspellings⟩ := exists_bin_of_resolve hanswer
    obtain ⟨hbsorted, hbspells⟩ := (hlib s.source hsource name b hfound).spells
    have hold : ∀ t, table.Spells t → (table.merge b.table).Spells t :=
      fun t ht => ht.merge_left hsorted hbsorted
    have hdirective : AllOf table.Spells [.lit TokenId.includeFile, token] :=
      htext.of_subset (by simp)
    have hrest : AllOf table.Spells after := htext.of_subset (by simp)
    have hstocked' := hstocked.mono hold
    refine ⟨table.merge b.table, by rw [htable, hspellings],
      SpellingTable.isSorted_merge hsorted hbsorted,
      ?_, ⟨hstocked'.early, hstocked'.late⟩, ?_, hsource.find name⟩
    · rw [htokens]
      refine List.forall_mem_cons.mpr ⟨fun t ht => (hbspells t ht).merge_right hsorted hbsorted,
        List.forall_mem_cons.mpr ⟨fun t ht => hold t (hrest t (List.mem_of_mem_drop ht)), ?_⟩⟩
      exact fun f hf t ht => hold t (houter f hf t ht)
    · rw [← List.append_assoc]
      refine List.forall_mem_append.mpr ⟨fun t ht => hold t (hout t ht), fun t ht => hold t ?_⟩
      exact hdirective.hide hmark t ht
  | leave hend =>
    rw [List.append_nil]
    exact ⟨table, htable, hsorted, (List.forall_mem_cons.mp hfiles).2, hstocked, hout, hsource⟩

/-- **A run that starts with spelled tokens ends with spelled tokens**, those that were put out
before among them. -/
theorem Runs.covered {lib : Library} (hlib : lib.Gives Bin.IsRead) {around : Surroundings Library}
    (haround : around.resolver = some Library.resolver) {pass : Pass} {a : Moment Library}
    {story : List Event} {table : SpellingTable} {before out : List Token} {s : PassState Library}
    (h : Runs around pass a story out ⟨[], s⟩) (ha : Covered lib table before a []) :
    Covered lib s.table before ⟨[], s⟩ out := by
  -- The table grows on the way, so the invariant holds with one table or another.
  obtain ⟨_, hend⟩ := h.invariant (fun m _ out => ∃ table, Covered lib table before m out)
    (fun ⟨_, hm⟩ hmove => hmove.covered hlib haround hm) ⟨table, ha⟩
  obtain rfl := hend.table_eq
  exact hend

/-! ## 5. Seeds -/

namespace Preprocessor

variable {p p' : Preprocessor σ}

/-- The table of the seeds is in order and spells them. -/
structure SeedsSpelled (p : Preprocessor σ) : Prop where
  isSorted : p.seedTable.isSorted
  early : p.earlySeeds.Bodied (fun _ => True) (AllOf p.seedTable.Spells)
  late : p.lateSeeds.Bodied (fun _ => True) (AllOf p.seedTable.Spells)

theorem addSeed_spelled {seed : Seed} (h : p.addSeed seed = .ok p') (hp : p.SeedsSpelled) :
    p'.SeedsSpelled := by
  obtain ⟨script, id, table, hread, hintern, hp'⟩ := addSeed_eq_ok h
  obtain ⟨hsorted, hspells⟩ := Script.spells_of_read hread
  have hextends := SpellingTable.intern_extends hintern
  have htable : table.isSorted := hextends.isSorted hp.isSorted
  have hold : ∀ {seeds : MacroTable}, seeds.Bodied (fun _ => True) (AllOf p.seedTable.Spells) →
      seeds.Bodied (fun _ => True) (AllOf (table.merge script.table).Spells) :=
    fun hs id hid definition hlookup t ht =>
      (hextends.spells hp.isSorted (hs id hid definition hlookup t ht)).merge_left htable hsorted
  have hnew : AllOf (table.merge script.table).Spells script.tokens :=
    fun t ht => (hspells t ht).merge_right htable hsorted
  have hmerged := SpellingTable.isSorted_merge htable hsorted
  rcases hp' with rfl | rfl
  · exact ⟨hmerged, (hold hp.early).define fun _ => hnew, hold hp.late⟩
  · exact ⟨hmerged, hold hp.early, (hold hp.late).define fun _ => hnew⟩

theorem seedsSpelled_build {platform : Option Platform} {runtime : Bytes → Option Int}
    {resolver : Option (Resolver σ)} {seeds : List Seed}
    (h : build platform runtime resolver seeds = .ok p) :
    p.SeedsSpelled ∧ p.around.resolver = resolver := by
  refine addSeeds_invariant (I := fun q => q.SeedsSpelled ∧ q.around.resolver = resolver) ?_ ?_ h
  · rintro seed - q q' hadd ⟨hq, hresolver⟩
    refine ⟨addSeed_spelled hadd hq, ?_⟩
    obtain ⟨script, id, table, -, -, rfl | rfl⟩ := addSeed_eq_ok hadd
    · exact hresolver
    · exact hresolver
  · exact ⟨⟨rfl, MacroTable.bodied_empty, MacroTable.bodied_empty⟩, rfl⟩

/-- A pass starts with spelled tokens, if the tokens, the macros that it finds and the seeds are
spelled. -/
theorem covered_start {lib : Library} {p : Preprocessor Library} (hp : p.SeedsSpelled) {pass : Pass}
    {tokens : List Token} {table : SpellingTable} {source : Library} (hsorted : table.isSorted)
    (htokens : AllOf table.Spells tokens)
    (hearly : pass = .second → p.early.Bodied (fun _ => True) (AllOf table.Spells))
    (hsource : lib.Becomes source) :
    Covered lib (table.merge p.seedTable) tokens (p.startMoment pass tokens table source) [] := by
  have hold : AllOf (table.merge p.seedTable).Spells tokens :=
    fun t ht => (htokens t ht).merge_left hsorted hp.isSorted
  have hseeds : ∀ {seeds : MacroTable}, seeds.Bodied (fun _ => True) (AllOf p.seedTable.Spells) →
      seeds.Bodied (fun _ => True) (AllOf (table.merge p.seedTable).Spells) :=
    fun hs id hid definition hlookup t ht =>
      (hs id hid definition hlookup t ht).merge_right hsorted hp.isSorted
  refine ⟨rfl, SpellingTable.isSorted_merge hsorted hp.isSorted, by simpa [startMoment] using hold,
    ⟨?_, hseeds hp.late⟩, by simpa using hold, hsource⟩
  -- The first pass starts with the seeds, the second with the macros that the first left.
  cases pass with
  | first => exact hseeds hp.early
  | second =>
    exact fun id hid definition hlookup t ht =>
      (hearly rfl id hid definition hlookup t ht).merge_left hsorted hp.isSorted

end Preprocessor

/-- **The table of an effect spells it.**  Let every bin that a library gives be read from a source.
When an effect compiles, for whichever platform, seeds and runtime, its table is in order, and it
spells every literal token that either pass left, hidden or visible, other than the end of a
definition. -/
theorem compile_spelled {lib : Library} (hlib : lib.Gives Bin.IsRead) (platform : Option Platform)
    (name : Bytes) (runtime : Bytes → Option Int) (seeds : List Seed) {e : Effect}
    (h : (Effect.compile lib platform name runtime seeds).answer = .ok e) :
    e.table.isSorted ∧ ∀ id, .lit id ∈ e.first ++ e.second → id ≠ TokenId.eol →
      (e.table.spelling? id).isSome := by
  obtain ⟨b, p, s₁, s₂, _, _, hfound, hbuild, hruns₁, hruns₂, htable⟩ := Effect.runs_of_compile h
  obtain ⟨hseeds, hresolver⟩ := Preprocessor.seedsSpelled_build hbuild
  obtain ⟨hbsorted, hbspells⟩ := (hlib lib .refl name b hfound).spells
  have hfirst := hruns₁.covered hlib hresolver
    (Preprocessor.covered_start hseeds hbsorted hbspells (by rintro ⟨⟩) (.find name .refl))
  have hafter : (p.leftBy s₁).SeedsSpelled := ⟨hseeds.isSorted, hseeds.early, hseeds.late⟩
  have hsecond := hruns₂.covered hlib hresolver (Preprocessor.covered_start hafter hfirst.isSorted
    (List.forall_mem_append.mp hfirst.out).2 (fun _ => hfirst.stocked.early) hfirst.source)
  rw [htable]
  exact ⟨hsecond.isSorted, fun id hid hne => (hsecond.out _ hid).resolve_left hne⟩

/-- An effect that includes a file and replaces the word in it by a seed. -/
theorem compile_spelled_inclusion :
    ∃ outer inner, Bin.ofSource [0x6D] (Bytes.ofString "#include <b>") = .ok outer ∧
      Bin.ofSource [0x62] [0x30] = .ok inner ∧
      let lib : Library := ⟨[], [], .little, [([0x6D], outer), ([0x62], inner)], ⟨[], []⟩⟩
      lib.Gives Bin.IsRead ∧
        ∃ e, (Effect.compile lib none [0x6D] (fun _ => none) [⟨1, [0x30], [0x3B]⟩]).answer = .ok e ∧
          visible e.first = [TokenId.zero] ∧ visible e.second = [33] ∧
          e.table.isSorted ∧ ∀ id, .lit id ∈ e.first ++ e.second → id ≠ TokenId.eol →
            (e.table.spelling? id).isSome := by
  have houter : Script.readFrom 12 (Bytes.ofString "#include <b>") .empty
      = .ok ([TokenId.includeFile, 1908338681] ++ [], ⟨[⟨1908338681, [0x62]⟩]⟩) :=
    Script.readFrom_item (by cbv) (by cbv) (Script.readFrom_end (by cbv) _)
  have hinner : Script.readFrom 1 [0x30] .empty = .ok ([TokenId.zero] ++ [], .empty) :=
    Script.readFrom_item (by cbv) (by cbv) (Script.readFrom_end (by cbv) _)
  have hseed : Script.readFrom 1 [0x3B] .empty = .ok ([33] ++ [], .empty) :=
    Script.readFrom_item (by cbv) (by cbv) (Script.readFrom_end (by cbv) _)
  have hmain := ofSource_of_readFrom [0x6D] (by decide) houter
  have hincluded := ofSource_of_readFrom [0x62] (by decide) hinner
  refine ⟨_, _, hmain, hincluded, ?_⟩
  intro lib
  have hlib : lib.Gives Bin.IsRead := by
    refine Library.gives_of_bins (fun label source b h => ⟨label, source, h⟩) (.inl rfl) ?_
    rw [List.forall_mem_cons, List.forall_mem_singleton]
    exact ⟨⟨_, _, hmain⟩, ⟨_, _, hincluded⟩⟩
  have hbuild : Preprocessor.build none (fun _ => none) (some Library.resolver)
      [⟨1, [0x30], [0x3B]⟩] = .ok ⟨⟨.empty, fun _ => none, some Library.resolver⟩, .empty,
          ⟨[(TokenId.zero, ⟨[.lit 33], 0⟩)]⟩, .empty, .empty, .empty, []⟩ := by
    simp only [Preprocessor.build, Preprocessor.addSeeds, Preprocessor.addSeed,
      Script.read_of_readFrom (by decide) hseed]
    cbv
  have hvisible : (Effect.compile lib none [0x6D] (fun _ => none) [⟨1, [0x30], [0x3B]⟩]).answer.map
      (fun e => (visible e.first, visible e.second)) = .ok ([TokenId.zero], [33]) := by
    unfold Effect.compile
    rw [hbuild]
    cbv
  obtain ⟨e, he, hshown⟩ := exists_ok_of_map hvisible
  obtain ⟨hfirst, hsecond⟩ := Prod.mk.inj hshown
  exact ⟨hlib, e, he, hfirst, hsecond, compile_spelled hlib none _ _ _ he⟩

end EffectScript
