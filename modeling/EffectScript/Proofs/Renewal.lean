import Mathlib
import EffectScript.Proofs.Moments
import EffectScript.Proofs.TreeSemantics

/-!
# What the second pass makes of a text for the first

The first pass leaves every definition that it carries out in the text, hidden, and the second pass
carries it out again when it gets there.  So a text that asks nothing of the second pass is not, in
general, left alone by it: a word that is shown is replaced once more, if a definition before it was
of its name, be it that the name came out of a replacement or was undefined in between
(`second_pass_replaces_again`).

Main statement: `second_pass_renews_story`.  The second pass succeeds, and what it shows is the
story of the first pass read over again (`renewed`): each word that was shown is replaced by the
last definition before it.  Where no word that is shown was defined before, it shows the same.

The induction is over the run of the first pass.  What carries it is that every stretch of output is
taken over by the second pass as a whole, in front of any text (`Redone`).
-/

namespace EffectScript

variable {σ : Type}

/-! ## 1. A story read over again -/

/-- The words that a story shows. -/
def shownIn (story : List Event) : List TokenId :=
  story.filterMap fun
    | .shown id => some id
    | _ => none

/-- The bodies of names, with one more. -/
def putBody (known : TokenId → Option (List Token)) (name : TokenId) (body : List Token)
    (id : TokenId) : Option (List Token) :=
  if id = name then some body else known id

/-- The bodies that are known after a story.  Undefining makes nothing unknown. -/
def knownAfter (known : TokenId → Option (List Token)) : List Event → TokenId → Option (List Token)
  | [] => known
  | .shown _ :: rest => knownAfter known rest
  | .defined name body _ _ :: rest => knownAfter (putBody known name body) rest
  | .undefined _ :: rest => knownAfter known rest

/-- The ids that stand for a word, where some bodies are known. -/
def renewedWord (known : TokenId → Option (List Token)) (id : TokenId) : List TokenId :=
  match known id with
  | some body => body.map Token.id
  | none => [id]

/-- What a story shows when every word in it is replaced by the last definition before it. -/
def renewed (known : TokenId → Option (List Token)) : List Event → List TokenId
  | [] => []
  | .shown id :: rest => renewedWord known id ++ renewed known rest
  | .defined name body _ _ :: rest => renewed (putBody known name body) rest
  | .undefined _ :: rest => renewed known rest

theorem knownAfter_append (known : TokenId → Option (List Token)) (story more : List Event) :
    knownAfter known (story ++ more) = knownAfter (knownAfter known story) more := by
  induction story generalizing known with
  | nil => rfl
  | cons event story ih => cases event <;> exact ih _

theorem renewed_append (known : TokenId → Option (List Token)) (story more : List Event) :
    renewed known (story ++ more)
      = renewed known story ++ renewed (knownAfter known story) more := by
  induction story generalizing known with
  | nil => rfl
  | cons event story ih =>
    cases event with
    | shown id => simp only [List.cons_append, renewed, knownAfter, ih, List.append_assoc]
    | defined name body late inside => exact ih _
    | undefined name => exact ih _

/-- A story that shows no word after a definition of it is renewed as it is. -/
theorem renewed_of_neverDefined {known : TokenId → Option (List Token)} {story : List Event}
    (h : ∀ before id after, story = before ++ .shown id :: after →
      known id = none ∧ NeverDefined id before) : renewed known story = shownIn story := by
  induction story generalizing known with
  | nil => rfl
  | cons event story ih =>
    have htail : ∀ before id after, story = before ++ .shown id :: after →
        known id = none ∧ NeverDefined id (event :: before) := by
      intro before id after hstory
      exact h (event :: before) id after (by rw [hstory]; rfl)
    have hnever : ∀ {id : TokenId} {before : List Event}, NeverDefined id (event :: before) →
        NeverDefined id before := fun {id before} hb =>
      (show NeverDefined id ([event] ++ before) from hb).of_append.2
    cases event with
    | shown id =>
      obtain ⟨hknown, -⟩ := h [] id story rfl
      have hrest := ih fun before id after hstory =>
        ⟨(htail before id after hstory).1, hnever (htail before id after hstory).2⟩
      simp only [renewed, renewedWord, hknown, hrest]
      rfl
    | defined name body late inside =>
      refine ih fun before id after hstory => ?_
      obtain ⟨hknown, hbefore⟩ := htail before id after hstory
      have hname : id ≠ name := by
        rintro rfl
        exact hbefore body late inside List.mem_cons_self
      exact ⟨by rw [putBody, if_neg hname, hknown], hnever hbefore⟩
    | undefined name =>
      exact ih fun before id after hstory =>
        ⟨(htail before id after hstory).1, hnever (htail before id after hstory).2⟩

/-! ## 2. Tables of words -/

namespace MacroTable

/-- Whatever the table has for an id is made of ordinary tokens. -/
def Worded (t : MacroTable) : Prop :=
  ∀ id definition, t.lookup? id = some definition →
    ∀ token ∈ definition.tokens, token.ordinary?.isSome

theorem IsPlain.worded {t : MacroTable} (h : t.IsPlain) : t.Worded :=
  fun _ _ hlookup => h _ (mem_of_lookup? hlookup)

theorem worded_empty : MacroTable.empty.Worded := by rintro _ _ ⟨⟩

theorem Worded.define {t : MacroTable} (h : t.Worded) (id : TokenId) {body : List Token}
    {mask : UInt64} (hbody : ∀ token ∈ body, token.ordinary?.isSome) :
    (t.define id ⟨body, mask⟩).Worded := by
  intro other definition hlookup
  rw [lookup?_define] at hlookup
  split at hlookup
  · cases hlookup
    exact hbody
  · exact h other definition hlookup

theorem Worded.erase {t : MacroTable} (h : t.Worded) (id : TokenId) : (t.erase id).Worded := by
  intro other definition hlookup
  rw [lookup?_erase] at hlookup
  split at hlookup
  · cases hlookup
  · exact h other definition hlookup

end MacroTable

/-- What a pass puts for a word is made of words. -/
theorem PassState.worded_expansion (pass : Pass) {s : PassState σ} (h : (s.current pass).Worded)
    {id : TokenId} (hid : id.isOrdinary) : ∀ t ∈ s.expansion pass id, t.ordinary?.isSome := by
  unfold PassState.expansion
  split
  · rename_i definition hlookup
    exact h id definition hlookup
  · intro t ht
    rw [List.mem_singleton.mp ht]
    simp [Token.ordinary?, hid]

/-! ## 3. Output that the second pass takes over -/

/-- The macros of the second pass are the bodies that are known. -/
def Remembers (known : TokenId → Option (List Token)) (s : PassState σ) : Prop :=
  (∀ id, (s.late.lookup? id).map (·.tokens) = known id) ∧ s.late.Worded

/-- A stretch of output shows what its story shows, and the second pass goes over it, in front of
any text: it shows the story over again and then knows the bodies of its definitions. -/
def Redone (around : Surroundings σ) (story : List Event) (out : List Token) : Prop :=
  (∀ k, visible (out ++ k) = shownIn story ++ visible k) ∧
    ∀ known (s : PassState σ), Remembers known s → ∀ index k, ∃ index' out' s',
      Leads around .second [] 0 ⟨index, out ++ k, s⟩ out' ⟨index', k, s'⟩ ∧
        Remembers (knownAfter known story) s' ∧ s'.branches = s.branches ∧
        ∀ k', visible (out' ++ k') = renewed known story ++ visible k'

section Redone

variable {around : Surroundings σ}

theorem redone_nil : Redone around [] [] := by
  refine ⟨fun k => rfl, fun known s hs index k => ?_⟩
  exact ⟨index, [], s, .refl _, hs, rfl, fun k' => rfl⟩

theorem Redone.append {story more : List Event} {out emitted : List Token}
    (h₁ : Redone around story out) (h₂ : Redone around more emitted) :
    Redone around (story ++ more) (out ++ emitted) := by
  refine ⟨fun k => ?_, fun known s hs index k => ?_⟩
  · have hshown : shownIn (story ++ more) = shownIn story ++ shownIn more :=
      List.filterMap_append
    rw [List.append_assoc, h₁.1, h₂.1, hshown, List.append_assoc]
  · obtain ⟨index₁, out₁, s₁, hleads₁, hs₁, hbranches₁, hvisible₁⟩ :=
      h₁.2 known s hs index (emitted ++ k)
    obtain ⟨index₂, out₂, s₂, hleads₂, hs₂, hbranches₂, hvisible₂⟩ := h₂.2 _ s₁ hs₁ index₁ k
    refine ⟨index₂, out₁ ++ out₂, s₂, ?_, ?_, hbranches₂.trans hbranches₁, fun k' => ?_⟩
    · rw [List.append_assoc]
      exact hleads₁.trans hleads₂
    · rw [knownAfter_append]
      exact hs₂
    · rw [List.append_assoc, hvisible₁, hvisible₂, renewed_append, List.append_assoc]

/-- What the second pass knows, it puts for a word. -/
theorem visible_expansion {known : TokenId → Option (List Token)} {s : PassState σ}
    (hs : Remembers known s) {id : TokenId} (hid : id.isOrdinary) (k : List Token) :
    visible (s.expansion .second id ++ k) = renewedWord known id ++ visible k := by
  obtain ⟨words, hwords⟩ : ∃ words, s.expansion .second id = renderOrdinary words :=
    ⟨_, (MacroTable.render_ordinary (PassState.worded_expansion .second hs.2 hid)).symm⟩
  have hids : renewedWord known id = (s.expansion .second id).map Token.id := by
    rw [renewedWord, ← hs.1, PassState.expansion, PassState.current]
    cases s.late.lookup? id <;> rfl
  rw [hids, hwords, visible_renderOrdinary, renderOrdinary, List.map_map]
  rfl

theorem redone_word (w : Ordinary) : Redone around [.shown w.id] [w.token] := by
  refine ⟨fun k => visible_renderOrdinary [w] k, fun known s hs index k => ?_⟩
  have hstep : step around .second [] 0 index w.token k s
      = .next 1 (s.expansion .second w.id) s := by
    simp only [step, Ordinary.token, w.not_directive, w.ne_eol, if_false, plainStep_eq]
  refine ⟨_, _, s, .one hstep rfl, hs, rfl, fun k' => ?_⟩
  rw [visible_expansion hs w.ordinary]
  simp [renewed]

/-- Words are shown, and shown again. -/
theorem redone_words {tokens : List Token} (h : ∀ t ∈ tokens, t.ordinary?.isSome) :
    Redone around ((visible tokens).map .shown) tokens := by
  rw [← MacroTable.render_ordinary h]
  have hvisible := visible_renderOrdinary (tokens.filterMap Token.ordinary?) []
  rw [List.append_nil, show visible [] = [] by rw [visible], List.append_nil] at hvisible
  rw [hvisible]
  induction tokens.filterMap Token.ordinary? with
  | nil => exact redone_nil
  | cons w words ih => exact (redone_word w).append ih

/-- The second pass takes a hidden unit over as it is, and enters what it finds in it. -/
theorem leads_hide (around : Surroundings σ) (s : PassState σ) {text : List Token}
    (hmarked : WellMarked text) (hne : text ≠ []) (index : Nat) (k : List Token) :
    ∃ index', Leads around .second [] 0 ⟨index, hide text ++ k, s⟩ (hide text)
      ⟨index', k, replay s (hide text)⟩ := by
  obtain ⟨mark, tail, hhide, hmark⟩ := hide_cons hne
  have hlen := hiddenLength_hide hmarked hne k
  rw [hhide] at hlen ⊢
  rw [List.cons_append, List.length_cons] at hlen
  have htake : (mark :: (tail ++ k)).take (tail.length + 1) = mark :: tail := by
    rw [List.take_succ_cons, List.take_left]
  have hstep : step around .second [] 0 index mark (tail ++ k) s
      = .next (tail.length + 1) (mark :: tail) (replay s (mark :: tail)) := by
    have hhidden : step around .second [] 0 index mark (tail ++ k) s
        = hiddenStep .second (hiddenLength (mark :: (tail ++ k))) (mark :: (tail ++ k)) s := by
      cases mark <;> first | rfl | cases hmark
    rw [hhidden, hlen, hiddenStep, htake]
    rfl
  exact ⟨_, .one hstep List.drop_left⟩

theorem redone_hidden {text : List Token} (hmarked : WellMarked text)
    (hinert : text.head? ≠ some (.lit TokenId.defineLate)) : Redone around [] (hide text) := by
  refine ⟨fun k => visible_hide_append hmarked k, fun known s hs index k => ?_⟩
  by_cases hne : text = []
  · subst hne
    exact redone_nil.2 known s hs index k
  · obtain ⟨index', hleads⟩ := leads_hide around s hmarked hne index k
    rw [replay_hide s hinert] at hleads
    exact ⟨index', _, s, hleads, hs, rfl, fun k' => visible_hide_append hmarked k'⟩

/-- Undefining is not done over again. -/
theorem Redone.undefined {out : List Token} (h : Redone around [] out) (name : TokenId) :
    Redone around [.undefined name] out := h

/-- A body is read up to the end of its line. -/
theorem bodyOf_line {body : List Token} (h : ∀ t ∈ body, t ≠ .lit TokenId.eol) (k : List Token) :
    bodyOf (body ++ .lit TokenId.eol :: k) = body := by
  rw [bodyOf, List.takeWhile_append_of_pos (by simpa using h)]
  simp

theorem wellMarked_words {body : List Token} (h : ∀ t ∈ body, t.ordinary?.isSome) :
    WellMarked body := by
  rw [← MacroTable.render_ordinary h]
  exact wellMarked_renderOrdinary _

/-- The definition that the first pass leaves is the one that the second enters, with the number
that its body starts with, -/
theorem replay_echo_line (s : PassState σ) (name : TokenId) {body : List Token}
    (hline : ∀ t ∈ body, t ≠ .lit TokenId.eol) :
    replay s (hide (echo name body))
      = { s with late := s.late.define name ⟨body, s.leadingMask body⟩ } := by
  have hshape : hide (echo name body) = .skipOpen :: .lit TokenId.defineLate :: .lit name ::
      (body ++ [.lit TokenId.eol, .skipClose]) := by
    simp [hide, echo]
  rw [hshape, replay]
  simp [bodyOf_line hline []]

/-- and so is one of words. -/
theorem replay_echo (s : PassState σ) (name : TokenId) {body : List Token}
    (hbody : ∀ t ∈ body, t.ordinary?.isSome) :
    replay s (hide (echo name body))
      = { s with late := s.late.define name ⟨body, s.leadingMask body⟩ } := by
  refine replay_echo_line s name fun t ht => ?_
  rintro rfl
  exact absurd (hbody _ ht) (by decide)

theorem redone_define (name : TokenId) {body : List Token} (late inside : Bool)
    (hbody : ∀ t ∈ body, t.ordinary?.isSome) :
    Redone around [.defined name body late inside] (hide (echo name body)) := by
  have hmarked : WellMarked (echo name body) :=
    .lit _ (.lit _ ((wellMarked_words hbody).append (.lit _ .nil)))
  refine ⟨fun k => visible_hide_append hmarked k, fun known s hs index k => ?_⟩
  obtain ⟨index', hleads⟩ := leads_hide around s hmarked (List.cons_ne_nil _ _) index k
  rw [replay_echo s name hbody] at hleads
  refine ⟨index', _, _, hleads, ⟨fun id => ?_, hs.2.define name hbody⟩, rfl,
    fun k' => visible_hide_append hmarked k'⟩
  simp only [knownAfter, putBody, MacroTable.lookup?_define]
  split
  · rfl
  · exact hs.1 id

end Redone

/-! ## 4. Texts for the first pass -/

/-- The directives that a text for the first pass does without. -/
def foreignIds : List TokenId :=
  [TokenId.includeFile, TokenId.defineLate, TokenId.ifLate, TokenId.ifdefLate, TokenId.ifndefLate]

/-- Whether a text is for the first pass alone: no hidden tokens, no files, no late directives, and
no directive in the body of a definition. -/
def isForFirst : List Token → Bool
  | [] => true
  | t :: rest =>
    t.isLit && !foreignIds.contains t.id &&
      (t.id != TokenId.define || (bodyOf rest.tail).all fun u => (Directive.ofId? u.id).isNone) &&
      isForFirst rest

theorem isForFirst_cons {t : Token} {rest : List Token} (h : isForFirst (t :: rest)) :
    t.isLit ∧ t.id ∉ foreignIds ∧
      (t.id = TokenId.define → ∀ u ∈ bodyOf rest.tail, Directive.ofId? u.id = none) ∧
      isForFirst rest := by
  simpa [isForFirst, and_assoc, Decidable.imp_iff_not_or] using h

theorem isForFirst_drop {tokens : List Token} (h : isForFirst tokens) (n : Nat) :
    isForFirst (tokens.drop n) := by
  induction n generalizing tokens with
  | zero => exact h
  | succ n ih =>
    cases tokens with
    | nil => exact h
    | cons t rest => exact ih (isForFirst_cons h).2.2.2

/-- The id of a definition tells which pass it is for. -/
theorem id_of_define {id : TokenId} {late : Bool}
    (h : Directive.ofId? id = some (.define late)) :
    id = if late then TokenId.defineLate else TokenId.define := by
  unfold Directive.ofId? at h
  split at h <;> cases h <;> rfl

/-- A directive that may be left to the second pass, and that opens a conditional, is a late one. -/
theorem foreign_of_isLeft {id : TokenId} {d : Directive} (h : Directive.ofId? id = some d)
    (hleft : d.isLeft) (hopens : d.opens) : id ∈ foreignIds := by
  obtain ⟨negated, rfl⟩ : ∃ negated, d = .ifTest negated true := by
    cases d with
    | ifTest negated late => exact ⟨negated, congrArg _ hleft⟩
    | ifVar negated => cases hleft
    | _ => cases hopens
  unfold Directive.ofId? at h
  split at h <;> cases h <;> decide

theorem isLit_of_isForFirst {tokens : List Token} (h : isForFirst tokens) :
    ∀ t ∈ tokens, t.isLit := by
  induction tokens with
  | nil => simp
  | cons t rest ih =>
    obtain ⟨hlit, -, -, hrest⟩ := isForFirst_cons h
    exact List.forall_mem_cons.mpr ⟨hlit, ih hrest⟩

/-- A literal token that is neither a directive nor the end of a definition is a word. -/
theorem ordinary?_isSome {t : Token} (hlit : t.isLit) (hid : Directive.ofId? t.id = none)
    (heol : t ≠ .lit TokenId.eol) : t.ordinary?.isSome := by
  cases t with
  | lit id =>
    have hne : id ≠ TokenId.eol := by
      rintro rfl
      exact heol rfl
    have hord : id.isOrdinary := by
      simp only [TokenId.isOrdinary, Bool.and_eq_true, Option.isNone_iff_eq_none, bne_iff_ne]
      exact ⟨hid, hne⟩
    simp [Token.ordinary?, hord]
  | skipOne => cases hlit
  | skipOpen => cases hlit
  | skipClose => cases hlit

/-- A body of literal tokens without directives is made of words. -/
theorem ordinary_bodyOf {after : List Token} (hlits : ∀ t ∈ after, t.isLit)
    (hbody : ∀ t ∈ bodyOf after, Directive.ofId? t.id = none) :
    ∀ t ∈ bodyOf after, t.ordinary?.isSome := by
  intro t ht
  have hmem : t ∈ after := (List.takeWhile_sublist _).subset ht
  have hne := List.mem_takeWhile_imp ht
  exact ordinary?_isSome (hlits t hmem) (hbody t ht) (bne_iff_ne.mp hne)

theorem forget_settled {s : PassState σ} (h : s.Settled) (id : TokenId) :
    (s.forget .first id).Settled := by
  unfold PassState.forget
  split
  · exact h
  · split <;> exact h

theorem forget_worded {s : PassState σ} (h : s.early.Worded) (id : TokenId) :
    (s.forget .first id).early.Worded := by
  unfold PassState.forget
  split
  · exact h.erase id
  · split <;> exact h

/-- **What a step over such a text puts out, the second pass takes over.** -/
theorem Deed.redone {first : Token} {rest emitted : List Token} {used : Nat} {s s' : PassState σ}
    (around : Surroundings σ) (h : Deed .first first rest s used emitted s')
    (hfirst : isForFirst (first :: rest)) (hsettled : s.Settled) (hearly : s.early.Worded) :
    Redone around (stepEvents first rest emitted s) emitted ∧ s'.Settled ∧ s'.early.Worded := by
  have hlits := isLit_of_isForFirst hfirst
  obtain ⟨hlit, hforeign, hbodies, -⟩ := isForFirst_cons hfirst
  cases h with
  | @word id _ _ hid =>
    have hnone : (Token.lit id).directive? = none := by
      simp only [TokenId.isOrdinary, Bool.and_eq_true, Option.isNone_iff_eq_none] at hid
      exact hid.1
    rw [stepEvents_of_none hnone]
    exact ⟨redone_words (PassState.worded_expansion .first hearly hid), hsettled, hearly⟩
  | ending =>
    rw [stepEvents_of_none rfl]
    exact ⟨redone_words (by simp), hsettled, hearly⟩
  | unit hmark =>
    rw [hmark] at hlit
    cases hlit
  | @define id name late after _ hid =>
    have hdefine : id = TokenId.define := by
      have hid' := id_of_define hid
      cases late with
      | false => exact hid'
      | true => exact absurd (hid' ▸ by decide) hforeign
    have hbody : ∀ t ∈ bodyOf after, t.ordinary?.isSome :=
      ordinary_bodyOf (fun t ht => hlits t (List.mem_cons_of_mem _ (List.mem_cons_of_mem _ ht)))
        (hbodies hdefine)
    have hevents : stepEvents (.lit id) (.lit name :: after) (hide (echo name (bodyOf after))) s
        = [.defined name (bodyOf after) late (!s.branches.isEmpty)] := by
      simp [stepEvents, Token.directive?, hid]
    refine ⟨?_, hsettled, ?_⟩
    · simp only [if_true]
      rw [hevents]
      exact redone_define name late _ hbody
    · simp only [PassState.enterMacro]
      split
      · exact hearly.define name hbody
      · exact hearly
  | @undefine id name after _ hid =>
    have hevents : stepEvents (.lit id) (name :: after) (hide [.lit id, name]) s
        = [.undefined name.id] := by
      simp [stepEvents, Token.directive?, hid]
    have hmarked : WellMarked [.lit id, name] := wellMarked_of_lits fun t ht =>
      hlits t ((List.prefix_append [.lit id, name] after).subset ht)
    have hinert : [.lit id, name].head? ≠ some (.lit TokenId.defineLate) := by
      rintro heq
      cases heq
      exact hforeign (by decide)
    rw [hevents]
    exact ⟨(redone_hidden hmarked hinert).undefined _, forget_settled hsettled _,
      forget_worded hearly _⟩
  | @hidden id d _ _ _ branches log env hid hd hwords hused hbranches =>
    have hmarked : WellMarked ((.lit id :: rest).take used) := wellMarked_of_lits fun t ht =>
      hlits t (List.mem_of_mem_take ht)
    have hinert : ((.lit id :: rest).take used).head? ≠ some (.lit TokenId.defineLate) := by
      obtain ⟨n, rfl⟩ := hused.exists_succ
      rintro heq
      cases heq
      exact hforeign (by decide)
    have hdirective : (Token.lit id).directive? = some d := hid
    rw [stepEvents_of_isHidden hdirective hd, visible_hide hmarked]
    exact ⟨redone_hidden hmarked hinert, hbranches hsettled, hearly⟩
  | @shown id d _ _ branches hid hd hoperand hwords hleft =>
    obtain ⟨-, hopens⟩ := hleft hsettled
    exact absurd (foreign_of_isLeft hid hd hopens) hforeign

/-- What holds all along a first pass over such a text. -/
structure Renewable (around : Surroundings σ) (m : Moment σ) (story : List Event)
    (out : List Token) : Prop where
  files : ∀ f ∈ m.files, isForFirst f.tokens
  settled : m.state.Settled
  early : m.state.early.Worded
  redone : Redone around story out

theorem Moves.renewable {around : Surroundings σ} {a b : Moment σ} {story events : List Event}
    {out emitted : List Token} (ha : Renewable around a story out)
    (h : Moves around .first a events emitted b) :
    Renewable around b (story ++ events) (out ++ emitted) := by
  obtain ⟨hfiles, hsettled, hearly, hredone⟩ := ha
  cases h with
  | next hstep =>
    obtain ⟨hfile, houter⟩ := List.forall_mem_cons.mp hfiles
    obtain ⟨hmore, hsettled', hearly'⟩ :=
      (step_deed hstep).redone around hfile hsettled hearly
    have hrest := isForFirst_drop (isForFirst_cons hfile).2.2.2
    exact ⟨List.forall_mem_cons.mpr ⟨hrest _, houter⟩, hsettled', hearly', hredone.append hmore⟩
  | enter hstep =>
    obtain ⟨hfile, -⟩ := List.forall_mem_cons.mp hfiles
    obtain ⟨_, _, _, _, rfl, -⟩ := step_eq_enter hstep
    exact absurd (by decide) (isForFirst_cons hfile).2.1
  | leave hend =>
    obtain ⟨-, houter⟩ := List.forall_mem_cons.mp hfiles
    exact ⟨houter, hsettled, hearly, hredone.append redone_nil⟩

/-! ## 5. Both passes -/

/-- **The second pass reads the story of the first over again.**  Let a text be for the first pass
alone, the seeds of that pass made of words, and no seeds given to the second.  When the first pass
succeeds, so does the second over its output; it shows what the first showed with each word replaced
by the last definition before it, and the same where no word was defined before it was shown. -/
theorem second_pass_renews_story (p : Preprocessor σ) (hearly : p.earlySeeds.IsPlain)
    (hlate : p.lateSeeds = .empty) (tokens : List Token) (htokens : isForFirst tokens)
    (table : SpellingTable) (source : σ) {out : List Token}
    (hrun : (p.run 0 tokens table source).result = .ok out) :
    let first := p.run 0 tokens table source
    ∃ story s out',
      Runs p.around .first (p.startMoment .first tokens table source) story out ⟨[], s⟩ ∧
      (first.after.run 1 out first.table first.source).result = .ok out' ∧
      visible out = shownIn story ∧ visible out' = renewed (fun _ => none) story ∧
      ((∀ before id after, story = before ++ .shown id :: after → NeverDefined id before) →
        visible out' = visible out) := by
  intro first
  have hfirst : (p.run Pass.first.number tokens table source).result = .ok out := hrun
  obtain ⟨story, s, hruns, -⟩ := Preprocessor.runs_of_run hfirst
  have hstart : Renewable p.around (p.startMoment .first tokens table source) [] [] :=
    ⟨by simpa [Preprocessor.startMoment] using htokens, by rintro _ ⟨⟩, hearly.worded, redone_nil⟩
  obtain ⟨-, -, -, hshown, hredone⟩ :=
    hruns.invariant (Renewable p.around) (fun ha hmove => hmove.renewable ha) hstart
  have hremembers : Remembers (fun _ => none)
      (first.after.start .second first.table first.source) := by
    have hseeds : first.after.lateSeeds = .empty := hlate
    refine ⟨fun id => ?_, ?_⟩
    · rw [Preprocessor.start, hseeds]
      rfl
    · rw [Preprocessor.start, hseeds]
      exact MacroTable.worded_empty
  obtain ⟨index, out', s', hleads, -, hbranches, hrenewed⟩ := hredone _ _ hremembers 0 []
  have hvisible := hshown []
  have hvisible' := hrenewed []
  rw [List.append_nil, visible, List.append_nil] at hvisible hvisible'
  rw [List.append_nil] at hleads
  have hsecond : first.after.run Pass.second.number out first.table first.source = _ :=
    Preprocessor.run_of_leads hleads hbranches
  refine ⟨story, s, out', hruns, ?_, hvisible, hvisible', fun hnever => ?_⟩
  · exact congrArg Preprocessor.Report.result hsecond
  · rw [hvisible, hvisible']
    exact renewed_of_neverDefined fun before id after hstory => ⟨rfl, hnever before id after hstory⟩

/-- A definition, and its name and that of a seed inside a conditional on it. -/
theorem second_pass_renews_conditional :
    let p : Preprocessor Unit :=
      { Preprocessor.bare with earlySeeds := ⟨[(103, ⟨[.lit 104], 0⟩)]⟩ }
    let tokens : List Token :=
      [.lit TokenId.define, .lit 100, .lit 101, .lit TokenId.eol, .lit TokenId.ifdef, .lit 100,
        .lit 100, .lit 103, .lit TokenId.endif]
    let first := p.run 0 tokens .empty ()
    p.earlySeeds.IsPlain ∧ p.lateSeeds = .empty ∧ isForFirst tokens ∧
      ∃ out, first.result = .ok out ∧ visible out = [101, 104] ∧
      ∃ story s out',
        Runs p.around .first (p.startMoment .first tokens .empty ()) story out ⟨[], s⟩ ∧
        (first.after.run 1 out first.table first.source).result = .ok out' ∧
        visible out = shownIn story ∧ visible out' = renewed (fun _ => none) story ∧
        ((∀ before id after, story = before ++ .shown id :: after → NeverDefined id before) →
          visible out' = visible out) := by
  intro p tokens first
  have hearly : p.earlySeeds.IsPlain := by decide
  have htokens : isForFirst tokens := by decide
  obtain ⟨out, hrun, hvisible⟩ : ∃ out, first.result = .ok out ∧ visible out = [101, 104] :=
    ⟨_, by cbv, by cbv⟩
  exact ⟨hearly, rfl, htokens, out, hrun, hvisible,
    second_pass_renews_story p hearly rfl tokens htokens .empty () hrun⟩

/-- **The second pass does not leave such a text alone.**  It replaces a word that came out of a
replacement, and one that was undefined before it was shown; and it fails over a seed that brings in
a directive. -/
theorem second_pass_replaces_again :
    let chain : List Token :=
      [.lit TokenId.define, .lit 100, .lit 101, .lit TokenId.eol,
        .lit TokenId.define, .lit 101, .lit 102, .lit TokenId.eol, .lit 100]
    let undone : List Token :=
      [.lit TokenId.define, .lit 100, .lit 101, .lit TokenId.eol, .lit 3, .lit 100, .lit 100]
    let seeded : Preprocessor Unit :=
      { Preprocessor.bare with earlySeeds := ⟨[(100, ⟨[.lit TokenId.endif], 0⟩)]⟩ }
    let both := fun (p : Preprocessor Unit) (tokens : List Token) =>
      let first := p.run 0 tokens .empty ()
      (first.result.map visible,
        first.result.toOption.map fun out =>
          ((first.after.run 1 out first.table first.source).result.map visible).toOption)
    both .bare chain = (.ok [101], some (some [102])) ∧
      both .bare undone = (.ok [100], some (some [101])) ∧
      both seeded [.lit 100] = (.ok [TokenId.endif], some none) := by
  refine ⟨?_, ?_, ?_⟩ <;> cbv

end EffectScript
