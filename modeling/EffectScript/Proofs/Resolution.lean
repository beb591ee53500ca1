import Mathlib
import EffectScript.Effect
import EffectScript.Proofs.Handover
import EffectScript.Proofs.Wording

/-!
# What compiling an effect leaves

An effect is compiled by two passes, the second over what the first handed over.  Where the sources
and the seeds have directives only in directive position, both results are well marked.  Of the
directives only those of conditionals for the second pass are visible after the first, and none
after the second; `#fetchinst` is no directive to either pass and stays.

The sources are those of a library.  What it gives may depend on what it was asked before, so the
assumption is about every library that it becomes by being asked (`Library.GivesInPlace`).  One
without a cache whose bins and files have their directives in place is such a library
(`Library.InPlace.gives`).

Main statement: `compile_resolves`.
-/

namespace EffectScript

variable {σ : Type}

/-! ## 1. The ids of source texts -/

/-- The directive that neither pass acts on. -/
def TokenId.fetchInst : TokenId := 5

theorem find?_ne_eol {spelling : Bytes} {id : TokenId} (h : Vocabulary.find? spelling = some id) :
    id ≠ TokenId.eol := by
  obtain ⟨i, hi, rfl⟩ := Option.map_eq_some_iff.mp h
  have hlt : i < Vocabulary.spellings.length := (List.findIdx?_eq_some_iff_getElem.mp hi).1
  have hlength : Vocabulary.spellings.length = 107 := by decide
  intro heq
  have hnat := congrArg UInt32.toNat heq
  rw [UInt32.toNat_ofNat'] at hnat
  simp only [TokenId.eol, UInt32.toNat_zero] at hnat
  omega

theorem hash_ne_eol (spelling : Bytes) : TokenId.hash spelling ≠ TokenId.eol := by
  unfold TokenId.hash
  dsimp only
  split
  · intro heq
    obtain ⟨-, hbit⟩ := UInt32.or_eq_zero_iff.mp heq
    cases hbit
  · rename_i hlarge
    intro heq
    rw [heq] at hlarge
    exact hlarge (by decide)

theorem intern_ne_eol {table table' : SpellingTable} {spelling : Bytes} {id : TokenId}
    (h : table.intern spelling = .ok (id, table')) : id ≠ TokenId.eol := by
  rcases SpellingTable.intern_eq_ok h with ⟨hfind, -⟩ | ⟨-, rfl, -⟩
  · exact find?_ne_eol hfind
  · exact hash_ne_eol spelling

theorem deferred_ne_eol {id : TokenId} (h : id ≠ TokenId.eol) : id.deferred ≠ TokenId.eol := by
  unfold TokenId.deferred
  repeat' split
  · decide
  · decide
  · decide
  · exact h

namespace Script

theorem internWord_ne_eol {table table' : SpellingTable} {w : Word} {id : TokenId}
    (h : internWord table w = .ok (id, table')) : id ≠ TokenId.eol := by
  unfold internWord at h
  split at h
  · cases h
  · rename_i hintern
    cases h
    split
    · exact deferred_ne_eol (intern_ne_eol hintern)
    · exact intern_ne_eol hintern

/-- The end of a definition comes with its directive. -/
theorem eol_not_mem_internItem {table table' : SpellingTable} {item : Item} {ids : List TokenId}
    (h : internItem table item = .ok (ids, table'))
    (hids : ∀ id ∈ ids, Directive.ofId? id = none) : TokenId.eol ∉ ids := by
  cases item with
  | word w =>
    simp only [internItem] at h
    split at h
    · cases h
    · rename_i hword
      cases h
      exact fun hmem => internWord_ne_eol hword (List.mem_singleton.mp hmem).symm
  | inclusion name =>
    simp only [internItem] at h
    split at h
    · cases h
    · cases h
      cases hids _ List.mem_cons_self
  | definition name body =>
    simp only [internItem] at h
    split at h
    · cases h
    · split at h
      · cases h
      · cases h
        have hdefine := hids _ List.mem_cons_self
        unfold defineId at hdefine
        split at hdefine <;> cases hdefine

theorem eol_not_mem_readFrom {total : Nat} {text : Bytes} {table table' : SpellingTable}
    {ids : List TokenId} (h : readFrom total text table = .ok (ids, table'))
    (hids : ∀ id ∈ ids, Directive.ofId? id = none) : TokenId.eol ∉ ids := by
  fun_induction readFrom total text table generalizing ids table' with
  | case1 => cases h
  | case2 =>
    cases h
    exact List.not_mem_nil
  | case3 => cases h
  | case4 => cases h
  | case5 text table item rest hitem first table₁ hfirst more table₂ hmore ih =>
    cases h
    obtain ⟨hleft, hright⟩ := List.forall_mem_append.mp hids
    rw [List.mem_append, not_or]
    exact ⟨eol_not_mem_internItem hfirst hleft, ih hmore hright⟩

/-- **A source without directives is made of words.** -/
theorem words_of_read {source : Bytes} {script : Script} (h : read source = .ok script)
    (hids : ∀ id ∈ script.ids, Directive.ofId? id = none) :
    ∀ t ∈ script.tokens, t.ordinary?.isSome := by
  have hread : TokenId.eol ∉ script.ids := eol_not_mem_readFrom (readFrom_of_read h) hids
  intro t ht
  obtain ⟨id, hid, rfl⟩ := List.mem_map.mp ht
  refine ordinary?_isSome rfl (hids id hid) fun heq => hread ?_
  cases heq
  exact hid

end Script

/-! ## 2. Seeds -/

namespace Preprocessor

theorem addSeeds_worded {p p' : Preprocessor σ} {seeds : List Seed} (h : p.addSeeds seeds = .ok p')
    (hseeds : ∀ seed ∈ seeds, ∀ script, Script.read seed.value = .ok script →
      ∀ id ∈ script.ids, Directive.ofId? id = none)
    (hearly : p.earlySeeds.Worded) (hlate : p.lateSeeds.Worded) :
    p'.earlySeeds.Worded ∧ p'.lateSeeds.Worded ∧ p'.around = p.around := by
  refine addSeeds_invariant (I := fun q => q.earlySeeds.Worded ∧ q.lateSeeds.Worded ∧
    q.around = p.around) ?_ ⟨hearly, hlate, rfl⟩ h
  rintro seed hseed q q' hadd ⟨hearly, hlate, haround⟩
  obtain ⟨script, id, table, hread, -, hq'⟩ := addSeed_eq_ok hadd
  have hwords := Script.words_of_read hread (hseeds seed hseed script hread)
  rcases hq' with rfl | rfl
  · exact ⟨hearly.define _ hwords, hlate, haround⟩
  · exact ⟨hearly, hlate.define _ hwords, haround⟩

end Preprocessor

/-! ## 3. Libraries with their directives in place -/

/-- A bin of literal tokens with its directives in place. -/
def Bin.InPlace (b : Bin) : Prop := (∀ t ∈ b.tokens, t.isLit) ∧ inPlace b.tokens

namespace Library

/-- What a library becomes by being asked for bins. -/
inductive Becomes (lib : Library) : Library → Prop
  | refl : Becomes lib lib
  | find {lib' : Library} (name : Bytes) (h : Becomes lib lib') :
      Becomes lib (lib'.find name).library

/-- Whatever the library gives, now or later, has its directives in place. -/
def GivesInPlace (lib : Library) : Prop :=
  ∀ lib', lib.Becomes lib' → ∀ name b, (lib'.find name).answer = .ok b → b.InPlace

/-- A library without a cache, the bins and the files of which have their directives in place. -/
structure InPlace (lib : Library) : Prop where
  uncached : lib.cache = []
  bins : ∀ entry ∈ lib.bins, entry.2.InPlace
  files : ∀ location content, (location, FileNode.file content) ∈ lib.files.nodes →
    ∀ script, Script.read content = .ok script → inPlace script.tokens

theorem mem_of_source {lib : Library} {name content : Bytes} (h : lib.source name = .ok content) :
    ∃ location, (location, FileNode.file content) ∈ lib.files.nodes := by
  unfold source at h
  split at h
  · cases h
  · split at h
    · rename_i hstat
      cases h
      unfold FileTree.stat at hstat
      split at hstat
      · cases hstat
      · rename_i location _
        split at hstat
        · rename_i hnode
          cases hstat
          unfold FileTree.node? at hnode
          split at hnode
          · cases hnode
          · exact ⟨location, mem_of_lookup hnode⟩
        · cases hstat
    · cases h
    · cases h

theorem InPlace.remember {lib : Library} (h : lib.InPlace) (name : Bytes) {b : Bin}
    (hb : b.InPlace) : (lib.remember name b).InPlace := by
  refine ⟨h.uncached, fun entry hentry => ?_, h.files⟩
  rcases List.mem_append.mp hentry with hold | hnew
  · exact h.bins entry (List.mem_filter.mp hold).1
  · rw [List.mem_singleton.mp hnew]
    exact hb

/-- Such a library stays one, and what it gives has its directives in place. -/
theorem InPlace.find {lib : Library} (h : lib.InPlace) (name : Bytes) :
    (lib.find name).library.InPlace ∧ ∀ b, (lib.find name).answer = .ok b → b.InPlace := by
  have hload : ∀ source, lib.loadStored name source = (none, []) := fun source =>
    if_pos h.uncached
  have hstore : ∀ b, lib.store b = (lib, []) := fun b => if_pos h.uncached
  unfold Library.find
  split
  · rename_i b hmemory
    refine ⟨h, fun b' hb' => ?_⟩
    cases hb'
    exact h.bins _ (mem_of_lookup hmemory)
  · split
    · exact ⟨h, by rintro _ ⟨⟩⟩
    · rename_i source hsource
      obtain ⟨location, hmem⟩ := mem_of_source hsource
      simp only [hload, hstore]
      split
      · exact ⟨h, by rintro _ ⟨⟩⟩
      · rename_i b hread
        have hb : b.InPlace := by
          unfold Bin.ofSource at hread
          split at hread
          · cases hread
          · rename_i script hscript
            cases hread
            exact ⟨by simp [Script.tokens, Token.isLit],
              h.files location source hmem script hscript⟩
        refine ⟨h.remember name hb, fun b' hb' => ?_⟩
        cases hb'
        exact hb

theorem InPlace.becomes {lib lib' : Library} (h : lib.InPlace) (hbecomes : lib.Becomes lib') :
    lib'.InPlace := by
  induction hbecomes with
  | refl => exact h
  | find name _ ih => exact (ih.find name).1

/-- **What such a library gives, now or later, has its directives in place.** -/
theorem InPlace.gives {lib : Library} (h : lib.InPlace) : lib.GivesInPlace :=
  fun _ hbecomes name => ((h.becomes hbecomes).find name).2

end Library

/-- What the library gives to be included is what it finds. -/
theorem exists_bin_of_resolve {lib : Library} {name : Bytes} {included : Included}
    (h : (Library.resolver.resolve name lib).answer = .ok included) :
    ∃ b, (lib.find name).answer = .ok b ∧ included.tokens = b.tokens ∧
      included.table = b.table := by
  simp only [Library.resolver] at h
  cases hfound : (lib.find name).answer with
  | error e =>
    rw [hfound] at h
    cases h
  | ok b =>
    rw [hfound] at h
    cases h
    exact ⟨b, rfl, rfl, rfl⟩

/-! ## 4. Both passes -/

/-- What holds all through the first pass. -/
structure HandingOver (lib : Library) (m : Moment Library) (out : List Token) : Prop where
  files : ∀ f ∈ m.files, (∀ t ∈ f.tokens, t.isLit) ∧ inPlace f.tokens
  source : lib.Becomes m.state.source
  early : m.state.early.Worded
  late : m.state.late.Worded
  handed : HandedOver out

theorem Moves.handsOver {lib : Library} (hlib : lib.GivesInPlace) {around : Surroundings Library}
    (haround : around.resolver = some Library.resolver) {a b : Moment Library} {events : List Event}
    {out emitted : List Token} (ha : HandingOver lib a out)
    (h : Moves around .first a events emitted b) : HandingOver lib b (out ++ emitted) := by
  obtain ⟨hfiles, hsource, hearly, hlate, hout⟩ := ha
  cases h with
  | next hstep =>
    obtain ⟨⟨hlits, hplace⟩, houter⟩ := List.forall_mem_cons.mp hfiles
    have hdeed := step_deed hstep
    obtain ⟨hemitted, hearly', hlate'⟩ := hdeed.handsOver hlits hplace hearly hlate
    refine ⟨List.forall_mem_cons.mpr ⟨⟨?_, ?_⟩, houter⟩, ?_, hearly', hlate', hout.append hemitted⟩
    · exact fun t ht => hlits t (List.mem_cons_of_mem _ (List.mem_of_mem_drop ht))
    · exact inPlace_drop (inPlace_cons hplace).2 _
    · rw [hdeed.source_eq]
      exact hsource
  | @enter _ _ _ _ _ _ _ _ name _ s _ hstep =>
    obtain ⟨⟨hlits, hplace⟩, houter⟩ := List.forall_mem_cons.mp hfiles
    obtain ⟨token, after, resolver, included, rfl, rfl, rfl, rfl, hresolver, hanswer, rfl, rfl⟩ :=
      step_eq_enter hstep
    rw [haround] at hresolver
    cases hresolver
    obtain ⟨b, hfound, htokens, -⟩ := exists_bin_of_resolve hanswer
    have hinside : b.InPlace := hlib s.source hsource name b hfound
    have hrest : ∀ t ∈ after, t.isLit := fun t ht =>
      hlits t (List.mem_cons_of_mem _ (List.mem_cons_of_mem _ ht))
    rw [htokens]
    refine ⟨List.forall_mem_cons.mpr ⟨hinside, List.forall_mem_cons.mpr ⟨⟨hrest, ?_⟩, houter⟩⟩,
      hsource.find name, hearly, hlate,
        hout.append (.of_hide (wellMarked_of_lits ?_) (by rintro ⟨⟩))⟩
    · exact inPlace_drop (inPlace_cons hplace).2 1
    · exact fun t ht => hlits t (List.mem_of_mem_take (i := 2) ht)
  | leave hend =>
    obtain ⟨-, houter⟩ := List.forall_mem_cons.mp hfiles
    exact ⟨houter, hsource, hearly, hlate, hout.append .nil⟩

/-- What holds all through the second pass. -/
structure Resolving (m : Moment σ) (out : List Token) : Prop where
  files : ∀ f ∈ m.files, HandedOver f.tokens
  settled : m.state.Settled
  late : m.state.late.Worded
  marked : WellMarked out
  words : ∀ id ∈ visible out, id.isOrdinary

theorem Moves.resolves {around : Surroundings σ} {a b : Moment σ} {events : List Event}
    {out emitted : List Token} (ha : Resolving a out)
    (h : Moves around .second a events emitted b) : Resolving b (out ++ emitted) := by
  obtain ⟨hfiles, hsettled, hlate, hmarked, hwords⟩ := ha
  cases h with
  | next hstep =>
    obtain ⟨hfile, houter⟩ := List.forall_mem_cons.mp hfiles
    obtain ⟨hrest, hemitted, hshown, hsettled', hlate'⟩ :=
      (step_deed hstep).resolves hfile hsettled hlate
    refine ⟨List.forall_mem_cons.mpr ⟨hrest, houter⟩, hsettled', hlate',
      hmarked.append hemitted, ?_⟩
    rw [hmarked.visible_append]
    exact List.forall_mem_append.mpr ⟨hwords, hshown⟩
  | enter hstep =>
    obtain ⟨hfile, -⟩ := List.forall_mem_cons.mp hfiles
    obtain ⟨_, _, _, _, rfl, -⟩ := step_eq_enter hstep
    obtain ⟨hd, -⟩ := hfile.of_directive rfl (by rintro ⟨⟩)
    cases hd
  | leave hend =>
    obtain ⟨-, houter⟩ := List.forall_mem_cons.mp hfiles
    rw [List.append_nil]
    exact ⟨houter, hsettled, hlate, hmarked, hwords⟩

/-- **The first pass hands its output over.** -/
theorem Preprocessor.run_handsOver {lib lib' : Library} (hlib : lib.GivesInPlace)
    (hbecomes : lib.Becomes lib') {p : Preprocessor Library}
    (hresolver : p.around.resolver = some Library.resolver) (hearly : p.earlySeeds.Worded)
    (hlate : p.lateSeeds.Worded) {tokens out : List Token} (hlits : ∀ t ∈ tokens, t.isLit)
    (hplace : inPlace tokens) {table : SpellingTable}
    (h : (p.run Pass.first.number tokens table lib').result = .ok out) : HandedOver out := by
  obtain ⟨story, s, hruns, -⟩ := runs_of_run h
  have hstart : HandingOver lib (p.startMoment .first tokens table lib') [] :=
    ⟨by simpa [startMoment] using ⟨hlits, hplace⟩, hbecomes, hearly, hlate, .nil⟩
  exact (hruns.invariant (fun m _ out => HandingOver lib m out)
    (fun ha hmove => hmove.handsOver hlib hresolver ha) hstart).handed

/-- **The second pass resolves what was handed over.** -/
theorem Preprocessor.run_resolves {p : Preprocessor σ} (hlate : p.lateSeeds.Worded)
    {tokens out : List Token} (htokens : HandedOver tokens) {table : SpellingTable} {source : σ}
    (h : (p.run Pass.second.number tokens table source).result = .ok out) :
    WellMarked out ∧ ∀ id ∈ visible out, id.isOrdinary := by
  obtain ⟨story, s, hruns, -⟩ := runs_of_run h
  have hstart : Resolving (p.startMoment .second tokens table source) [] :=
    ⟨by simpa [startMoment] using htokens, by rintro _ ⟨⟩, hlate, .nil, by simp [visible]⟩
  have hend := hruns.invariant (fun m _ out => Resolving m out)
    (fun ha hmove => hmove.resolves ha) hstart
  exact ⟨hend.marked, hend.words⟩

/-! ## 5. Compiled effects -/

theorem eq_fetchInst {id : TokenId} (hid : Directive.ofId? id = none) (h : id.isDirective) :
    id = TokenId.fetchInst := by
  have hall : ∀ n < 20, Directive.ofId? (UInt32.ofNat n) = none →
      TokenId.isDirective (UInt32.ofNat n) → UInt32.ofNat n = TokenId.fetchInst := by decide
  have hlt : id.toNat < 20 := by
    simp only [TokenId.isDirective, Bool.and_eq_true, decide_eq_true_eq] at h
    have hle := UInt32.le_iff_toNat_le.mp h.2
    simp only [TokenId.elifVar, UInt32.toNat_ofNat] at hle
    omega
  have heq := hall id.toNat hlt
  rw [UInt32.ofNat_toNat] at heq
  exact heq hid h

/-- The directives of conditionals that are for the second pass. -/
def leftIds : List TokenId :=
  [TokenId.ifLate, TokenId.ifdefLate, TokenId.ifndefLate, TokenId.elifTest, TokenId.elifVar,
    TokenId.elseBranch, TokenId.endif]

theorem mem_leftIds {id : TokenId} {d : Directive} (hid : Directive.ofId? id = some d)
    (hd : d.isLeft) : id ∈ leftIds := by
  unfold Directive.ofId? at hid
  split at hid
  all_goals cases hid
  all_goals first
    | decide
    | cases hd

/-- Both passes went over a bin. -/
theorem Effect.ofBin_eq_ok {p : Preprocessor Library} {name : Bytes} {b : Bin} {lib : Library}
    {e : Effect} (h : (ofBin p name b lib).answer = .ok e) :
    let one := p.run Pass.first.number b.tokens b.table lib
    one.result = .ok e.first ∧
      (one.after.run Pass.second.number e.first one.table one.source).result = .ok e.second := by
  intro one
  unfold ofBin at h
  dsimp only at h
  split at h
  · cases h
  · rename_i first hfirst
    split at h
    · cases h
    · rename_i second hsecond
      cases h
      exact ⟨hfirst, hsecond⟩

/-- **Compiling resolves all directives.**  Let the bins of a library and the seeds have directives
only in directive position.  When an effect compiles, what either pass leaves is well marked.
Visible directives are, after the first, those of conditionals for the second and `#fetchinst`, and
after the second `#fetchinst` alone; nor is the end of a definition visible then. -/
theorem compile_resolves {lib : Library} (hlib : lib.GivesInPlace) (platform : Option Platform)
    (name : Bytes) (runtime : Bytes → Option Int) {seeds : List Seed}
    (hseeds : ∀ seed ∈ seeds, ∀ script, Script.read seed.value = .ok script →
      ∀ id ∈ script.ids, Directive.ofId? id = none)
    {e : Effect} (h : (Effect.compile lib platform name runtime seeds).answer = .ok e) :
    WellMarked e.first ∧
      (∀ id ∈ visible e.first, id.isDirective → id = TokenId.fetchInst ∨ id ∈ leftIds) ∧
      WellMarked e.second ∧
      ∀ id ∈ visible e.second, id ≠ TokenId.eol ∧ (id.isDirective → id = TokenId.fetchInst) := by
  unfold Effect.compile at h
  dsimp only at h
  split at h
  · cases h
  · rename_i b hfound
    split at h
    · cases h
    · rename_i p hbuild
      obtain ⟨hearly, hlate, haround⟩ := Preprocessor.addSeeds_worded hbuild hseeds
        MacroTable.worded_empty MacroTable.worded_empty
      obtain ⟨hlits, hplace⟩ := hlib lib .refl name b hfound
      obtain ⟨hfirst, hsecond⟩ := Effect.ofBin_eq_ok h
      have hhanded : HandedOver e.first := Preprocessor.run_handsOver hlib (.find name .refl)
        (by rw [haround]) hearly hlate hlits hplace hfirst
      obtain ⟨hmarked, hwords⟩ := Preprocessor.run_resolves
        (p := (p.run Pass.first.number b.tokens b.table _).after) hlate hhanded hsecond
      refine ⟨hhanded.wellMarked, fun id hid hdirective => ?_, hmarked, fun id hid => ?_⟩
      · rcases hhanded.mem_visible hid with hnone | ⟨d, hd, hleft⟩
        · exact .inl (eq_fetchInst hnone hdirective)
        · exact .inr (mem_leftIds hd hleft)
      · exact ⟨Ordinary.ne_eol ⟨id, hwords id hid⟩,
          eq_fetchInst (Ordinary.not_directive ⟨id, hwords id hid⟩)⟩

/-- An effect that includes a file inside a conditional for the second pass, which a seed
decides. -/
theorem compile_resolves_inclusion :
    let outer : Bin := ⟨[0x61], 0, 0, ⟨[⟨0x500, [0x62]⟩]⟩,
      [.lit TokenId.ifLate, .lit TokenId.zero, .lit TokenId.includeFile, .lit 0x500,
        .lit TokenId.elseBranch, .lit 0x401, .lit TokenId.endif, .lit TokenId.fetchInst,
          .lit 0x402]⟩
    let inner : Bin := ⟨[0x62], 0, 0, .empty,
      [.lit TokenId.define, .lit 0x402, .lit 0x403, .lit TokenId.eol,
        .lit TokenId.ifdef, .lit 0x404, .lit 0x405, .lit TokenId.endif, .lit 0x402]⟩
    let lib : Library := ⟨[], [], .little, [([0x61], outer), ([0x62], inner)], ⟨[], []⟩⟩
    let seeds : List Seed := [⟨1, [0x30], [0x31]⟩]
    lib.GivesInPlace ∧
      (∀ seed ∈ seeds, ∀ script, Script.read seed.value = .ok script →
        ∀ id ∈ script.ids, Directive.ofId? id = none) ∧
      ∃ e, (Effect.compile lib none [0x61] (fun _ => none) seeds).answer = .ok e ∧
        visible e.first = [TokenId.ifLate, TokenId.zero, 0x403, TokenId.elseBranch, 0x401,
          TokenId.endif, TokenId.fetchInst, 0x403] ∧
        visible e.second = [0x403, TokenId.fetchInst, 0x403] ∧
        WellMarked e.first ∧
        (∀ id ∈ visible e.first, id.isDirective → id = TokenId.fetchInst ∨ id ∈ leftIds) ∧
        WellMarked e.second ∧
        ∀ id ∈ visible e.second, id ≠ TokenId.eol ∧ (id.isDirective → id = TokenId.fetchInst) := by
  intro outer inner lib seeds
  have hlib : lib.GivesInPlace := by
    refine Library.InPlace.gives ⟨rfl, ?_, by rintro _ _ ⟨⟩⟩
    rw [List.forall_mem_cons, List.forall_mem_singleton]
    exact ⟨⟨by decide, by cbv⟩, ⟨by decide, by cbv⟩⟩
  have hread : Script.read [0x31] = .ok ⟨[TokenId.one], .empty⟩ := by
    have hfrom : Script.readFrom 1 [0x31] .empty = .ok ([TokenId.one] ++ [], .empty) :=
      Script.readFrom_item (by cbv) (by cbv) (Script.readFrom_end (by cbv) .empty)
    have htext : ([0x31] : Bytes).filter (· != 0x0D) = [0x31] := by decide
    simp only [Script.read, htext, List.length_singleton, hfrom]
    rfl
  have hseeds : ∀ seed ∈ seeds, ∀ script, Script.read seed.value = .ok script →
      ∀ id ∈ script.ids, Directive.ofId? id = none := by
    intro seed hseed script hscript id hid
    rw [List.mem_singleton.mp hseed, hread] at hscript
    cases hscript
    rw [List.mem_singleton.mp hid]
    rfl
  have hbuild : Preprocessor.build none (fun _ => none) (some Library.resolver) seeds
      = .ok ⟨⟨.empty, fun _ => none, some Library.resolver⟩, .empty,
          ⟨[(TokenId.zero, ⟨[.lit TokenId.one], 0⟩)]⟩, .empty, .empty, .empty, []⟩ := by
    simp only [Preprocessor.build, seeds, Preprocessor.addSeeds, Preprocessor.addSeed, hread]
    cbv
  have hvisible : (Effect.compile lib none [0x61] (fun _ => none) seeds).answer.map
      (fun e => (visible e.first, visible e.second))
        = .ok ([TokenId.ifLate, TokenId.zero, 0x403, TokenId.elseBranch, 0x401, TokenId.endif,
            TokenId.fetchInst, 0x403], [0x403, TokenId.fetchInst, 0x403]) := by
    unfold Effect.compile
    rw [hbuild]
    cbv
  cases he : (Effect.compile lib none [0x61] (fun _ => none) seeds).answer with
  | error cause =>
    rw [he] at hvisible
    cases hvisible
  | ok e =>
    simp only [he, Except.map, Except.ok.injEq, Prod.mk.injEq] at hvisible
    exact ⟨hlib, hseeds, e, rfl, hvisible.1, hvisible.2, compile_resolves hlib none _ _ hseeds he⟩

end EffectScript
