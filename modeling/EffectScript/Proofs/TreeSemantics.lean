import EffectScript.Proofs.Simulation

/-!
# What calls make of blocks

The meaning of a block (`Proofs/Meaning`) and the simulation of a pass (`Proofs/Simulation`) are
put together here for whole calls of a preprocessor.  A preprocessor brings a dictionary, the
bodies of its seeds, and a world: its platform and its runtime variables, which are found by the
spellings of the call.

Main statements:

* `run_interprets_block`: a first pass over a block that it decides succeeds, and shows what
  `Block.interpret` gives;
* `run_twice_stages_block`: two passes over a block without definitions succeed, and show its
  meaning over both passes, `Block.staged`, however the conditionals of the two passes lie inside
  each other.
-/

namespace EffectScript

variable {σ : Type}

/-! ## 1. The dictionary of a preprocessor -/

/-- The word that a token is, when it is an ordinary one. -/
def Token.ordinary? : Token → Option Ordinary
  | .lit id => if h : id.isOrdinary then some ⟨id, h⟩ else none
  | _ => none

theorem Token.ordinary?_eq_some {t : Token} {w : Ordinary} (h : t.ordinary? = some w) :
    w.token = t := by
  cases t with
  | lit id =>
    simp only [Token.ordinary?] at h
    split at h
    · cases h
      rfl
    · cases h
  | skipOne => cases h
  | skipOpen => cases h
  | skipClose => cases h

theorem mem_of_lookup {α β : Type} [BEq α] [LawfulBEq α] {key : α} {value : β}
    {entries : List (α × β)} (h : entries.lookup key = some value) : (key, value) ∈ entries := by
  obtain ⟨before, after, hentries, -⟩ := List.lookup_eq_some_iff.mp h
  rw [hentries]
  exact List.mem_append_right _ List.mem_cons_self

namespace MacroTable

/-- The bodies of all macros are ordinary tokens. -/
def IsPlain (t : MacroTable) : Prop := ∀ e ∈ t.entries, ∀ token ∈ e.2.tokens, token.ordinary?.isSome

instance (t : MacroTable) : Decidable t.IsPlain :=
  inferInstanceAs (Decidable (∀ e ∈ t.entries, ∀ token ∈ e.2.tokens, token.ordinary?.isSome))

/-- No macro brings in a sign of expressions. -/
def IsSignFree (t : MacroTable) : Prop :=
  ∀ e ∈ t.entries, Token.lit TokenId.orSign ∉ e.2.tokens ∧ Token.lit TokenId.andSign ∉ e.2.tokens

instance (t : MacroTable) : Decidable t.IsSignFree :=
  inferInstanceAs (Decidable (∀ e ∈ t.entries,
    Token.lit TokenId.orSign ∉ e.2.tokens ∧ Token.lit TokenId.andSign ∉ e.2.tokens))

/-- The words of the macros. -/
def texts (t : MacroTable) (id : TokenId) : Option (List Ordinary) :=
  (t.lookup? id).map fun definition => definition.tokens.filterMap Token.ordinary?

theorem mem_of_lookup? {t : MacroTable} {id : TokenId} {definition : Definition}
    (h : t.lookup? id = some definition) : (id, definition) ∈ t.entries := mem_of_lookup h

theorem render_ordinary {tokens : List Token} (h : ∀ t ∈ tokens, t.ordinary?.isSome) :
    renderOrdinary (tokens.filterMap Token.ordinary?) = tokens := by
  induction tokens with
  | nil => rfl
  | cons t rest ih =>
    obtain ⟨w, hw⟩ := Option.isSome_iff_exists.mp (h t List.mem_cons_self)
    have hrest := ih fun u hu => h u (List.mem_cons_of_mem _ hu)
    rw [List.filterMap_cons_some hw, renderOrdinary, List.map_cons, Token.ordinary?_eq_some hw]
    exact congrArg _ hrest

theorem means_texts {t : MacroTable} (h : t.IsPlain) : t.Means t.texts := by
  intro id
  unfold texts
  cases hlookup : t.lookup? id with
  | none => rfl
  | some definition =>
    have hrender := render_ordinary (h _ (mem_of_lookup? hlookup))
    rw [Option.map_some, Option.map_some, Option.map_some, hrender]

theorem isSign_of_texts {t : MacroTable} (h : t.IsSignFree) {id : TokenId} {body : List Ordinary}
    (hbody : t.texts id = some body) : ∀ w ∈ body, w.isSign = false := by
  intro w hw
  obtain ⟨definition, hlookup, rfl⟩ := Option.map_eq_some_iff.mp hbody
  obtain ⟨token, htoken, hordinary⟩ := List.mem_filterMap.mp hw
  obtain ⟨hor, hand⟩ := h _ (mem_of_lookup? hlookup)
  rw [← Token.ordinary?_eq_some hordinary] at htoken
  have hne : ∀ sign, Token.lit sign ∉ definition.tokens → w.id ≠ sign := by
    rintro sign hsign rfl
    exact hsign htoken
  simp [Ordinary.isSign, hne _ hor, hne _ hand]

end MacroTable

namespace Preprocessor

/-- The words that the seeds stand for. -/
def dictionary (p : Preprocessor σ) : Dictionary := ⟨p.earlySeeds.texts, p.lateSeeds.texts⟩

/-- What tests can ask in a call with the given spellings. -/
def world (p : Preprocessor σ) (table : SpellingTable) : World :=
  World.of p.around (table.merge p.seedTable)

/-- What tests can ask in two calls. -/
def worlds (p : Preprocessor σ) (table next : SpellingTable) : Pass → World
  | .first => p.world table
  | .second => p.world next

theorem start_first_agrees {p : Preprocessor σ} (hearly : p.earlySeeds.IsPlain)
    (hlate : p.lateSeeds.IsPlain) (table : SpellingTable) (source : σ) :
    Agrees p.around (p.world table) p.dictionary [] (p.start .first table source) :=
  ⟨MacroTable.means_texts hearly, MacroTable.means_texts hlate, rfl, rfl⟩

/-- A call on the text of a block leaves its residue. -/
theorem run_block {p : Preprocessor σ} {pass : Pass} {d : Dictionary} {table : SpellingTable}
    {source : σ} (h : Agrees p.around (p.world table) d [] (p.start pass table source)) {b : Block}
    (hreadable : b.Readable) :
    ∃ s, p.run pass.number b.render table source
        = ⟨.ok (b.reduce (p.world table) pass false d).1.render, s.table, s.log, s.env,
            { p with early := s.early, late := s.late, branches := [] }, s.source⟩
      ∧ Agrees p.around (p.world table) (b.reduce (p.world table) pass false d).2 [] s := by
  obtain ⟨index, s, hleads, hs⟩ := b.reaches_reduce hreadable [] h (Nat.le_refl 0) 0
  rw [List.append_nil] at hleads
  exact ⟨s, run_of_leads hleads hs.branches, hs⟩

end Preprocessor

/-! ## 2. One pass -/

/-- **A first pass interprets the tree.**  It goes through the text of any block that can be read
back and that is for it to decide, leaves no conditional open, shows what the tree means, and ends
with the macros that the tree ends with. -/
theorem run_interprets_block (p : Preprocessor σ) (hearly : p.earlySeeds.IsPlain)
    (hlate : p.lateSeeds.IsPlain) (b : Block) (hreadable : b.Readable)
    (hdecided : b.IsDecided .first) (table : SpellingTable) (source : σ) :
    let report := p.run 0 b.render table source
    let meaning := b.interpret (p.world table) .first false p.dictionary
    ∃ out, report.result = .ok out ∧ report.after.depth = 0 ∧ visible out = idsOf meaning.1 ∧
      report.after.early.Means meaning.2.early ∧ report.after.late.Means meaning.2.late := by
  intro report meaning
  have hstart := Preprocessor.start_first_agrees hearly hlate table source
  obtain ⟨s, hrun, hs⟩ := Preprocessor.run_block hstart hreadable
  have hdictionary := (b.visible_reduce (p.world table) .first hreadable hdecided false
    p.dictionary).1
  rw [hdictionary] at hs
  have hreport : report = _ := hrun
  rw [hreport]
  exact ⟨_, rfl, rfl, Block.visible_residue _ _ hreadable hdecided _ _, hs.early, hs.late⟩

/-- The condition that asks for one name. -/
def Condition.ofId (id : TokenId) (h : id.isExpressionSign = false) : Condition :=
  .last (.operand false ⟨id, h⟩)

theorem Test.readable_ofId {id : TokenId} (h : id.isExpressionSign = false)
    (hid : Directive.ofId? id = none) {branch : List Token}
    (hbranch : startsWithSign branch = false) :
    (Test.expression (.ofId id h)).Readable branch := by
  refine ⟨?_, ?_, hbranch⟩
  · exact (by decide : 1 ≤ maxTerms ∧ 0 < maxTerms)
  · intro other hother
    cases List.mem_singleton.mp hother
    exact hid

/-- A preprocessor with a macro for each pass, where every runtime variable is set. -/
def Preprocessor.sample : Preprocessor Unit :=
  { bare with
    around := ⟨.empty, fun _ => some 1, none⟩
    earlySeeds := ⟨[(100, ⟨[.lit 101, .lit 102], 0⟩)]⟩
    lateSeeds := ⟨[(101, ⟨[.lit 103], 0⟩)]⟩ }

/-- A definition, then a conditional whose first test is negated and whose second asks for the macro
just defined; the branch taken holds another conditional. -/
theorem run_interprets_block_nested :
    let inner : Block :=
      .conditional (.expression .ifndef false (.ofId 100 rfl)) (.word ⟨104, rfl⟩)
        (.otherwise (.word ⟨100, rfl⟩))
    let b : Block :=
      .seq (.define false ⟨104, rfl⟩ [⟨105, rfl⟩])
        (.conditional (.runtime true 106) (.word ⟨100, rfl⟩)
          (.elif (.expression (.ofId 104 rfl)) (.seq (.word ⟨104, rfl⟩) inner) .endif))
    let p := Preprocessor.sample
    let report := p.run 0 b.render .empty ()
    p.earlySeeds.IsPlain ∧ p.lateSeeds.IsPlain ∧ b.Readable ∧ b.IsDecided .first ∧
      ∃ out, report.result = .ok out ∧ report.after.depth = 0 ∧ visible out = [105, 101, 102] := by
  intro inner b p report
  have hearly : p.earlySeeds.IsPlain := by decide
  have hlate : p.lateSeeds.IsPlain := by decide
  have hinner : inner.Readable := ⟨Test.readable_ofId rfl rfl rfl, trivial, trivial⟩
  have hreadable : b.Readable :=
    ⟨trivial, rfl, trivial, Test.readable_ofId rfl rfl rfl, ⟨trivial, hinner⟩, trivial⟩
  have hdecided : b.IsDecided .first :=
    ⟨trivial, rfl, trivial, ⟨trivial, rfl, trivial, trivial⟩, trivial⟩
  obtain ⟨out, hresult, hdepth, hvisible, -⟩ :=
    run_interprets_block p hearly hlate b hreadable hdecided .empty ()
  exact ⟨hearly, hlate, hreadable, hdecided, out, hresult, hdepth, hvisible⟩

/-! ## 3. Two passes -/

/-- **Two passes stage the tree.**  On the text of a block without definitions, and where no word
and no macro of the first pass is a sign, both passes succeed and leave no conditional open; the
second shows the meaning of the block over both.  A conditional is decided, with all its arms, by
the pass that its head is for, also where it lies inside one of the other pass. -/
theorem run_twice_stages_block (p : Preprocessor σ) (hearly : p.earlySeeds.IsPlain)
    (hlate : p.lateSeeds.IsPlain) (hsigns : p.earlySeeds.IsSignFree) (b : Block)
    (hreadable : b.Readable) (hstageable : b.Stageable) (table : SpellingTable) (source : σ) :
    let first := p.run 0 b.render table source
    ∃ between, first.result = .ok between ∧ first.after.depth = 0 ∧
      let second := first.after.run 1 between first.table first.source
      ∃ out, second.result = .ok out ∧ second.after.depth = 0 ∧
        visible out = idsOf (b.staged (p.worlds table first.table) p.dictionary) := by
  intro first
  have hsignFree : p.dictionary.SignFree := fun id body hbody =>
    MacroTable.isSign_of_texts hsigns hbody
  have hstart := Preprocessor.start_first_agrees hearly hlate table source
  obtain ⟨s, hrun, hs⟩ := Preprocessor.run_block hstart hreadable
  rw [b.reduce_dictionary _ hstageable] at hs
  have hfirst : first = _ := hrun
  rw [hfirst]
  refine ⟨_, rfl, rfl, ?_⟩
  -- The second call gets the residue, and starts with the seeds of the second pass again.
  let q : Preprocessor σ := { p with early := s.early, late := s.late, branches := [] }
  have hresidue := b.reduce_readable (p.world table) hsignFree hreadable hstageable false
  have hnext : Agrees q.around (q.world s.table) p.dictionary []
      (q.start .second s.table s.source) :=
    ⟨hs.early, MacroTable.means_texts hlate, rfl, rfl⟩
  obtain ⟨s', hrun', -⟩ := Preprocessor.run_block hnext hresidue
  have hvisible := Block.visible_residue (q.world s.table) .second hresidue
    (Block.isDecided_second _) false p.dictionary
  have hmeaning : (b.reduce (p.world table) .first false p.dictionary).1.interpret
      (q.world s.table) .second false p.dictionary
      = (b.staged (p.worlds table s.table) p.dictionary, p.dictionary) :=
    b.interpret_reduce (p.worlds table s.table) p.dictionary hstageable false false
  rw [hmeaning] at hvisible
  intro second
  have hsecond : second = _ := hrun'
  rw [hsecond]
  exact ⟨_, rfl, rfl, hvisible⟩

/-- A conditional of the first pass and one of the second, both inside one of the second.  The word
that the first pass selects is replaced by both. -/
theorem run_twice_stages_block_nested :
    let early : Block :=
      .conditional (.expression .ifdef false (.ofId 100 rfl)) (.word ⟨100, rfl⟩) .endif
    let late : Block :=
      .conditional (.expression .ifndef true (.ofId 100 rfl)) (.word ⟨105, rfl⟩) .endif
    let b : Block :=
      .conditional (.expression .ifdef true (.ofId 101 rfl)) (.seq early late)
        (.elif (.runtime 106) (.word ⟨104, rfl⟩) .endif)
    let p := Preprocessor.sample
    let first := p.run 0 b.render .empty ()
    p.earlySeeds.IsPlain ∧ p.lateSeeds.IsPlain ∧ p.earlySeeds.IsSignFree ∧ b.Readable ∧
      b.Stageable ∧
      ∃ between, first.result = .ok between ∧ first.after.depth = 0 ∧
        let second := first.after.run 1 between first.table first.source
        ∃ out, second.result = .ok out ∧ second.after.depth = 0 ∧
          visible out = [103, 102, 105] := by
  intro early late b p first
  have hearly : p.earlySeeds.IsPlain := by decide
  have hlate : p.lateSeeds.IsPlain := by decide
  have hsigns : p.earlySeeds.IsSignFree := by decide
  have hreadable : b.Readable :=
    ⟨Test.readable_ofId rfl rfl rfl,
      ⟨⟨Test.readable_ofId rfl rfl rfl, trivial, trivial⟩,
        ⟨Test.readable_ofId rfl rfl rfl, trivial, trivial⟩⟩,
      rfl, trivial, trivial⟩
  have hstageable : b.Stageable := ⟨⟨⟨rfl, trivial⟩, ⟨rfl, trivial⟩⟩, rfl, trivial⟩
  obtain ⟨between, hresult, hdepth, out, hresult', hdepth', hvisible⟩ :=
    run_twice_stages_block p hearly hlate hsigns b hreadable hstageable .empty ()
  exact ⟨hearly, hlate, hsigns, hreadable, hstageable, between, hresult, hdepth, out, hresult',
    hdepth', hvisible⟩

end EffectScript
