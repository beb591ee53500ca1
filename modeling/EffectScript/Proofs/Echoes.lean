import Mathlib
import EffectScript.Proofs.Finding
import EffectScript.Proofs.Provenance

/-!
# What becomes of a definition in the second pass

The first pass records a definition and leaves an *echo* of it, a hidden unit with the name and the
body.  The second pass starts with its seeds alone, and enters the definition again when it meets
the echo.

The echo brings the body back.  A definition is read up to the end of its line, and no other text of
the first pass looks like an echo of the name: what it shows has no marks, and what it hides begins
with another directive (`Runs.echoFree`).  So once the second pass has met the echo, only a
definition of its own or undefining changes what the name means (`Runs.current_kept`), and however
that pass cuts the text, no echo of the name begins in what is left (`EchoFree`).

The echo does not bring the condition bits back.  The first pass records those of the conditionals
that are open, and the second takes the number that the body starts with.  So the two record the
same definition just when these agree (`echo_restores_body`), which they need not
(`echo_takes_leading_number`).
-/

namespace EffectScript

variable {σ : Type}

/-! ## 1. Texts without marks and without echoes -/

/-- A text as it is read from a source: no token of it is a mark. -/
def MarkFree (tokens : List Token) : Prop := ∀ t ∈ tokens, t.isLit

instance (tokens : List Token) : Decidable (MarkFree tokens) :=
  inferInstanceAs (Decidable (∀ t ∈ tokens, t.isLit))

theorem MarkFree.of_subset {tokens more : List Token} (h : MarkFree tokens) (hsub : more ⊆ tokens) :
    MarkFree more := fun t ht => h t (hsub ht)

/-- Nowhere in a text an echo of the name begins. -/
def EchoFree (name : TokenId) (tokens : List Token) : Prop :=
  ∀ k, ¬ (.skipOpen :: .lit TokenId.defineLate :: .lit name :: k) <:+ tokens

namespace EchoFree

variable {name : TokenId} {k : List Token}

theorem nil : EchoFree name [] := by
  intro k h
  cases List.suffix_nil.mp h

/-- However a text is cut, no echo begins in what is left. -/
theorem drop {t : Token} {rest : List Token} (h : EchoFree name (t :: rest)) (n : Nat) :
    EchoFree name (rest.drop n) := fun k hk =>
  h k (hk.trans ((List.drop_suffix n rest).trans (List.suffix_cons t rest)))

/-- Only a mark that opens a region can begin an echo. -/
theorem cons {t : Token} (ht : t ≠ .skipOpen) (h : EchoFree name k) : EchoFree name (t :: k) := by
  intro tail htail
  rcases List.suffix_cons_iff.mp htail with heq | hlater
  · cases heq
    exact ht rfl
  · exact h tail hlater

theorem markFree_append {text : List Token} (htext : MarkFree text) (h : EchoFree name k) :
    EchoFree name (text ++ k) := by
  induction text with
  | nil => exact h
  | cons t text ih =>
    obtain ⟨ht, hrest⟩ := List.forall_mem_cons.mp htext
    refine cons ?_ (ih hrest)
    rintro rfl
    cases ht

theorem of_markFree {text : List Token} (htext : MarkFree text) : EchoFree name text := by
  have h : EchoFree name (text ++ []) := markFree_append htext nil
  rwa [List.append_nil] at h

/-- A hidden text begins an echo of the name only if it is a late definition of the name. -/
theorem hide_append {text : List Token} (htext : MarkFree text)
    (hhead : ¬ [.lit TokenId.defineLate, .lit name] <+: text) (h : EchoFree name k) :
    EchoFree name (hide text ++ k) := by
  unfold hide
  split
  · exact h
  · exact cons (t := .skipOne) (by decide) (markFree_append htext h)
  · have hinside : EchoFree name (text ++ .skipClose :: k) :=
      markFree_append htext (cons (by decide) h)
    rw [List.cons_append, List.cons_append, List.append_assoc, List.singleton_append]
    intro tail htail
    rcases List.suffix_cons_iff.mp htail with heq | hlater
    · -- The two tokens behind the mark stand in front of the one that closes the region.
      obtain ⟨-, htokens⟩ := List.cons.inj heq
      cases text with
      | nil => cases htokens
      | cons t text =>
        cases text with
        | nil => cases htokens
        | cons u text =>
          cases htokens
          exact hhead ⟨text, rfl⟩
    · exact hinside tail hlater

/-- A hidden directive that is no late definition begins no echo. -/
theorem hide_directive {id : TokenId} {d : Directive} {rest : List Token}
    (htext : MarkFree (.lit id :: rest)) (hid : Directive.ofId? id = some d) (hd : d ≠ .define true)
    (h : EchoFree name k) : EchoFree name (hide (.lit id :: rest) ++ k) := by
  refine hide_append htext ?_ h
  rintro ⟨tail, heq⟩
  cases heq
  cases hid
  exact hd rfl

end EchoFree

/-! ## 2. What the first pass puts out -/

/-- The files that can be included have no marks, as long as the resolver's state is good, which it
stays. -/
structure Surroundings.IsMarkFree (around : Surroundings σ) (good : σ → Prop) : Prop where
  keeps : around.Keeps good
  given : ∀ {r : Resolver σ} {name : Bytes} {source : σ} {file : Included},
    around.resolver = some r → good source → (r.resolve name source).answer = .ok file →
      MarkFree file.tokens

/-- Those of a library of bins without marks. -/
theorem Library.isMarkFree {lib : Library} (h : lib.Gives fun b => MarkFree b.tokens)
    {around : Surroundings Library} (haround : around.resolver = some Library.resolver) :
    around.IsMarkFree lib.Becomes where
  keeps := by
    intro r hr name lib' hbecomes
    rw [haround] at hr
    cases hr
    exact hbecomes.find name
  given := by
    intro r name lib' file hr hbecomes hanswer
    rw [haround] at hr
    cases hr
    obtain ⟨b, hfound, htokens, -⟩ := exists_bin_of_resolve hanswer
    rw [htokens]
    exact h lib' hbecomes name b hfound

/-- What holds all through the first pass over texts without marks. -/
structure Moment.IsMarkFree (good : σ → Prop) (m : Moment σ) : Prop where
  files : ∀ f ∈ m.files, MarkFree f.tokens
  early : m.state.early.Bodied (fun _ => True) MarkFree
  source : good m.state.source

section First

variable {around : Surroundings σ} {good : σ → Prop} {name : TokenId}

/-- Definitions of such texts are such texts. -/
theorem Deed.early_markFree {first : Token} {rest emitted : List Token} {used : Nat}
    {s s' : PassState σ} (h : Deed .first first rest s used emitted s') (htext : MarkFree rest)
    (hs : s.early.Bodied (fun _ => True) MarkFree) : s'.early.Bodied (fun _ => True) MarkFree := by
  cases h with
  | word hid => exact hs
  | ending => exact hs
  | unit hmark => exact hs
  | hidden branches log env hid hd hwords hused hsettled => exact hs
  | shown branches hid hd hoperand hwords hsettled => exact hs
  | undefine hid => exact PassState.bodied_forget .first hs _
  | define hid =>
    refine PassState.bodied_enterMacro .first hs _ fun _ => htext.of_subset fun t ht => ?_
    exact List.mem_cons_of_mem _ ((List.takeWhile_sublist _).subset ht)

/-- What a step of the first pass puts in front of a text begins no echo of a name that it does not
define. -/
theorem Deed.echoFree {first : Token} {rest emitted k : List Token} {used : Nat}
    {s s' : PassState σ} (h : Deed .first first rest s used emitted s')
    (htext : MarkFree (first :: rest)) (hs : s.early.Bodied (fun _ => True) MarkFree)
    (hnever : NeverDefined name (stepEvents first rest emitted s)) (hk : EchoFree name k) :
    EchoFree name (emitted ++ k) := by
  cases h with
  | @word id _ _ hid =>
    refine EchoFree.markFree_append ?_ hk
    exact PassState.bodied_expansion .first hs trivial (List.forall_mem_singleton.mpr rfl)
  | ending => exact hk
  | unit hmark =>
    rw [htext _ List.mem_cons_self] at hmark
    cases hmark
  | @define id other late after _ hid =>
    have hbody : MarkFree (bodyOf after) := htext.of_subset fun t ht =>
      List.mem_cons_of_mem _ (List.mem_cons_of_mem _ ((List.takeWhile_sublist _).subset ht))
    have hecho : MarkFree (echo other (bodyOf after)) := by
      refine List.forall_mem_cons.mpr ⟨rfl, List.forall_mem_cons.mpr ⟨rfl, ?_⟩⟩
      exact List.forall_mem_append.mpr ⟨hbody, List.forall_mem_singleton.mpr rfl⟩
    refine EchoFree.hide_append hecho ?_ hk
    rintro ⟨tail, heq⟩
    cases heq
    refine hnever (bodyOf after) late (!s.branches.isEmpty) ?_
    simp [stepEvents, Token.directive?, hid]
  | undefine hid =>
    refine EchoFree.hide_directive (htext.of_subset fun t ht => ?_) hid (by rintro ⟨⟩) hk
    exact List.mem_of_mem_take (i := 2) ht
  | @hidden id d _ _ used branches log env hid hd hwords hused hsettled =>
    obtain ⟨n, rfl⟩ := hused.exists_succ
    rw [List.take_succ_cons]
    refine EchoFree.hide_directive (htext.of_subset ?_) hid ?_ hk
    · exact ((List.take_sublist n _).cons_cons _).subset
    · rintro rfl
      cases hd
  | shown branches hid hd hoperand hwords hsettled =>
    exact EchoFree.markFree_append (htext.of_subset (List.take_sublist _ _).subset) hk

/-- **Texts without marks stay so** through the first pass. -/
theorem Moves.isMarkFree (haround : around.IsMarkFree good)
    {a b : Moment σ} {events : List Event} {emitted : List Token}
    (h : Moves around .first a events emitted b) (ha : a.IsMarkFree good) : b.IsMarkFree good := by
  have hgood := h.keepsGood haround.keeps ha.source
  obtain ⟨hfiles, hearly, hsource⟩ := ha
  cases h with
  | next hstep =>
    obtain ⟨htext, houter⟩ := List.forall_mem_cons.mp hfiles
    have hrest := htext.of_subset (List.subset_cons_self _ _)
    refine ⟨List.forall_mem_cons.mpr ⟨?_, houter⟩, (step_deed hstep).early_markFree hrest hearly,
      hgood⟩
    exact hrest.of_subset (List.drop_sublist _ _).subset
  | enter hstep =>
    obtain ⟨htext, houter⟩ := List.forall_mem_cons.mp hfiles
    obtain ⟨_, _, r, included, rfl, rfl, rfl, rfl, hr, hanswer, rfl, rfl⟩ := step_eq_enter hstep
    refine ⟨List.forall_mem_cons.mpr ⟨haround.given hr hsource hanswer,
      List.forall_mem_cons.mpr ⟨?_, houter⟩⟩, hearly, hgood⟩
    exact htext.of_subset fun t ht => List.mem_cons_of_mem _ (List.mem_of_mem_drop ht)
  | leave hend => exact ⟨(List.forall_mem_cons.mp hfiles).2, hearly, hgood⟩

theorem Runs.isMarkFree (haround : around.IsMarkFree good)
    {a b : Moment σ} {story : List Event} {out : List Token}
    (h : Runs around .first a story out b) (ha : a.IsMarkFree good) : b.IsMarkFree good :=
  h.invariant (fun m _ _ => m.IsMarkFree good) (fun hm hmove => hmove.isMarkFree haround hm) ha

theorem Moves.echoFree {a b : Moment σ} {events : List Event} {emitted k : List Token}
    (h : Moves around .first a events emitted b) (ha : a.IsMarkFree good)
    (hnever : NeverDefined name events) (hk : EchoFree name k) : EchoFree name (emitted ++ k) := by
  obtain ⟨hfiles, hearly, -⟩ := ha
  cases h with
  | next hstep =>
    exact (step_deed hstep).echoFree (List.forall_mem_cons.mp hfiles).1 hearly hnever hk
  | enter hstep =>
    obtain ⟨_, _, _, _, rfl, rfl, rfl, rfl, -⟩ := step_eq_enter hstep
    have htext := (List.forall_mem_cons.mp hfiles).1
    refine EchoFree.hide_directive (htext.of_subset fun t ht => ?_) rfl (by rintro ⟨⟩) hk
    exact List.mem_of_mem_take (i := 2) ht
  | leave hend => exact hk

/-- **A run of the first pass that does not define a name leaves no echo of it.** -/
theorem Runs.echoFree (haround : around.IsMarkFree good)
    {a b : Moment σ} {story : List Event} {out : List Token}
    (h : Runs around .first a story out b) (ha : a.IsMarkFree good)
    (hnever : NeverDefined name story) : EchoFree name out := by
  induction h with
  | refl a => exact .nil
  | move hmove _ ih =>
    obtain ⟨hnow, hlater⟩ := hnever.of_append
    exact hmove.echoFree ha hnow (ih (hmove.isMarkFree haround ha) hlater)

/-- What is noticed of a definition is noticed of nothing else. -/
theorem stepEvents_eq_defined {first : Token} {rest emitted body : List Token} {late inside : Bool}
    {s : PassState σ} (h : stepEvents first rest emitted s = [.defined name body late inside]) :
    first.directive? = some (.define late) ∧ ∃ after, rest = .lit name :: after ∧
      bodyOf after = body := by
  unfold stepEvents at h
  split at h
  · rename_i hfirst
    cases h
    exact ⟨hfirst, _, rfl, rfl⟩
  · cases h
  · rw [List.map_eq_singleton_iff] at h
    obtain ⟨_, -, hshown⟩ := h
    cases hshown

/-- A plain definition is recorded with the bits of the open conditionals, and its echo is left. -/
theorem Moves.plain_define {a b : Moment σ} {emitted body : List Token} {inside : Bool}
    {events : List Event} (h : Moves around .first a events emitted b)
    (hevents : events = [.defined name body false inside]) :
    (∃ f ∈ a.files, body ⊆ f.tokens) ∧ (∀ t ∈ body, t ≠ .lit TokenId.eol) ∧
      emitted = hide (echo name body) ∧
      b.state.early.lookup? name = some ⟨body, Branch.maskAll a.state.branches⟩ := by
  cases h with
  | @next _ _ _ _ first _ _ _ s _ hstep =>
    obtain ⟨hfirst, after, rfl, rfl⟩ := stepEvents_eq_defined hevents
    cases first with
    | lit id =>
      rw [step_directive hfirst, directiveStep, defineStep_eq, if_pos rfl] at hstep
      cases hstep
      refine ⟨⟨_, List.mem_cons_self, fun t ht => ?_⟩, fun t ht => ?_, rfl, ?_⟩
      · exact List.mem_cons_of_mem _ (List.mem_cons_of_mem _
          ((List.takeWhile_sublist _).subset ht))
      · simpa using List.mem_takeWhile_imp ht
      · simp [PassState.enterMacro, MacroTable.lookup?_define]
    | skipOne => cases hfirst
    | skipOpen => cases hfirst
    | skipClose => cases hfirst
  | enter hstep => cases hevents
  | leave hend => cases hevents

end First

/-! ## 3. What a name means stays -/

section Kept

variable {around : Surroundings σ} {pass : Pass} {name : TokenId}

namespace PassState

theorem enterMacro_current {s : PassState σ} (late : Bool) {other : TokenId} (body : List Token)
    (hname : name ≠ other) : ((s.enterMacro pass late other body).current pass).lookup? name
      = (s.current pass).lookup? name := by
  cases pass with
  | first =>
    simp only [current, enterMacro]
    split
    · rw [MacroTable.lookup?_define, if_neg hname]
    · rfl
  | second => simp [current, enterMacro, MacroTable.lookup?_define, hname]

theorem forget_current {s : PassState σ} {other : TokenId} (hname : name ≠ other) :
    ((s.forget pass other).current pass).lookup? name = (s.current pass).lookup? name := by
  have herase : ((s.current pass).erase other).lookup? name = (s.current pass).lookup? name := by
    rw [MacroTable.lookup?_erase, if_neg hname]
  unfold forget
  split
  · cases pass <;> exact herase
  · cases pass with
    | first => split <;> rfl
    | second => rfl

end PassState

/-- A hidden unit that is no echo of the name leaves what it means. -/
theorem replay_kept {s : PassState σ} {text : List Token} (h : EchoFree name text) (n : Nat) :
    (replay s (text.take n)).late.lookup? name = s.late.lookup? name := by
  unfold replay
  split
  · rename_i directive id inner hunit
    split
    · rename_i hdefine
      have hname : name ≠ id := by
        rintro rfl
        simp only [Bool.and_eq_true, decide_eq_true_eq] at hdefine
        obtain ⟨rfl, -⟩ := hdefine
        have htext := List.take_append_drop n text
        rw [hunit] at htext
        exact h (inner ++ text.drop n) ⟨[], htext⟩
      rw [MacroTable.lookup?_define, if_neg hname]
    · rfl
  · rfl

theorem Deed.current_kept {first : Token} {rest emitted : List Token} {used : Nat}
    {s s' : PassState σ} (h : Deed pass first rest s used emitted s')
    (hfree : EchoFree name (first :: rest))
    (hnever : NeverDefined name (stepEvents first rest emitted s))
    (hkept : .undefined name ∉ stepEvents first rest emitted s) :
    (s'.current pass).lookup? name = (s.current pass).lookup? name := by
  cases h with
  | word hid => rfl
  | ending => rfl
  | unit hmark =>
    cases pass with
    | first => rfl
    | second => exact replay_kept hfree _
  | @define id other late after _ hid =>
    refine PassState.enterMacro_current late _ ?_
    rintro rfl
    refine hnever (bodyOf after) late (!s.branches.isEmpty) ?_
    simp [stepEvents, Token.directive?, hid]
  | undefine hid =>
    refine PassState.forget_current ?_
    rintro rfl
    refine hkept ?_
    simp [stepEvents, Token.directive?, hid]
  | hidden branches log env hid hd hwords hused hsettled => cases pass <;> rfl
  | shown branches hid hd hoperand hwords hsettled => cases pass <;> rfl

/-- **A pass keeps what a name means** as long as it neither defines nor undefines it, and comes to
no echo of it. -/
theorem Runs.current_kept {good : σ → Prop} (haround : around.IsMarkFree good) {a b : Moment σ}
    {story : List Event} {out : List Token} (h : Runs around pass a story out b)
    (hfree : ∀ f ∈ a.files, EchoFree name f.tokens) (hgood : good a.state.source)
    (hnever : NeverDefined name story) (hkept : .undefined name ∉ story) :
    (b.state.current pass).lookup? name = (a.state.current pass).lookup? name := by
  induction h with
  | refl a => rfl
  | move hmove _ ih =>
    obtain ⟨hnow, hlater⟩ := hnever.of_append
    obtain ⟨hkeptNow, hkeptLater⟩ := not_or.mp (mt List.mem_append.mpr hkept)
    have hgood' := hmove.keepsGood haround.keeps hgood
    cases hmove with
    | next hstep =>
      obtain ⟨hfile, houter⟩ := List.forall_mem_cons.mp hfree
      rw [ih (List.forall_mem_cons.mpr ⟨hfile.drop _, houter⟩) hgood' hlater hkeptLater]
      exact (step_deed hstep).current_kept hfile hnow hkeptNow
    | enter hstep =>
      obtain ⟨hfile, houter⟩ := List.forall_mem_cons.mp hfree
      obtain ⟨_, _, r, included, rfl, rfl, rfl, rfl, hr, hanswer, rfl, rfl⟩ := step_eq_enter hstep
      have hinside : EchoFree name included.tokens :=
        .of_markFree (haround.given hr hgood hanswer)
      rw [ih (List.forall_mem_cons.mpr ⟨hinside, List.forall_mem_cons.mpr ⟨hfile.drop _, houter⟩⟩)
        hgood' hlater hkeptLater]
      cases pass <;> rfl
    | leave hend => exact ih (List.forall_mem_cons.mp hfree).2 hgood' hlater hkeptLater

end Kept

/-! ## 4. Echoes -/

/-- Behind the echo, the name means what the echo says, to the end of the second pass. -/
theorem Runs.echo_kept {around : Surroundings σ} {good : σ → Prop}
    (haround : around.IsMarkFree good) {name : TokenId} {body more : List Token} {index : Nat}
    {t s : PassState σ} {story : List Event} {out : List Token}
    (h : Runs around .second ⟨[⟨[], 0, index, hide (echo name body) ++ more⟩], t⟩ story out ⟨[], s⟩)
    (hbody : MarkFree body) (hline : ∀ u ∈ body, u ≠ .lit TokenId.eol) (hmore : EchoFree name more)
    (hgood : good t.source) (hnever : NeverDefined name story) (hkept : .undefined name ∉ story) :
    s.late.lookup? name = some ⟨body, t.leadingMask body⟩ := by
  have hmarked : WellMarked (echo name body) :=
    .lit _ (.lit _ ((wellMarked_of_lits hbody).append (.lit _ .nil)))
  obtain ⟨index', hleads⟩ := leads_hide around t hmarked (List.cons_ne_nil _ _) index more
  rw [replay_echo_line t name hline] at hleads
  obtain ⟨_, hunit⟩ := hleads.runs []
  obtain ⟨later, rest, rfl, -, hrest⟩ := hunit.split h rfl
  obtain ⟨-, hkeptLater⟩ := not_or.mp (mt List.mem_append.mpr hkept)
  have hlate := hrest.current_kept haround (List.forall_mem_singleton.mpr hmore) hgood
    hnever.of_append.2 hkeptLater
  exact hlate.trans (by simp [PassState.current, MacroTable.lookup?_define])

/-- **An echo brings the body back, and no condition bits.**  Let a call of the first pass, over
texts without marks, come to a plain definition of a name, and not define the name again.  Let the
second pass over its output come to the echo, and neither define nor undefine the name behind it.
Then the first call leaves the name, unless it undefines it, with the body and the bits of the
conditionals that are open at the definition, and the second leaves it with the same body and the
number that the body starts with.  So the two leave the same definition just when these bits are the
same. -/
theorem echo_restores_body (p : Preprocessor σ) {good : σ → Prop}
    (haround : p.around.IsMarkFree good) (hseeds : p.earlySeeds.Bodied (fun _ => True) MarkFree)
    {tokens out out' : List Token} (htokens : MarkFree tokens) (table : SpellingTable) {source : σ}
    (hsource : good source) (spelling : Bytes) {one two : Preprocessor.Report σ}
    -- The first pass comes to the definition at `a`,
    (hone : p.run Pass.first.number tokens table source = one) (hfirst : one.result = .ok out)
    {before behind : List Event} {left emitted more body : List Token} {inside : Bool}
    {a b : Moment σ} {s : PassState σ}
    (hbefore : Runs p.around .first (p.startMoment .first tokens table source) before left a)
    (hdefine : Moves p.around .first a
      [.defined (TokenId.ofSpelling spelling) body false inside] emitted b)
    (hbehind : Runs p.around .first b behind more ⟨[], s⟩)
    (hnever : NeverDefined (TokenId.ofSpelling spelling) behind)
    -- and the second pass to the echo in the state `t`.
    (htwo : one.after.run Pass.second.number out one.table one.source = two)
    (hsecond : two.result = .ok out')
    {before' behind' : List Event} {left' more' : List Token} {index : Nat} {t s' : PassState σ}
    (hbefore' : Runs p.around .second (one.after.startMoment .second out one.table one.source)
      before' left' ⟨[⟨[], 0, index, emitted ++ more⟩], t⟩)
    (hbehind' : Runs p.around .second ⟨[⟨[], 0, index, emitted ++ more⟩], t⟩ behind' more' ⟨[], s'⟩)
    (hnever' : NeverDefined (TokenId.ofSpelling spelling) behind')
    (hkept' : .undefined (TokenId.ofSpelling spelling) ∉ behind') :
    two.after.lookup? Pass.second.number spelling = some ⟨body, t.leadingMask body⟩ ∧
      (.undefined (TokenId.ofSpelling spelling) ∉ behind →
        one.after.lookup? Pass.first.number spelling
          = some ⟨body, Branch.maskAll a.state.branches⟩ ∧
        (two.after.lookup? Pass.second.number spelling
            = one.after.lookup? Pass.first.number spelling ↔
          t.leadingMask body = Branch.maskAll a.state.branches)) := by
  have hstart : (p.startMoment .first tokens table source).IsMarkFree good :=
    ⟨List.forall_mem_singleton.mpr htokens, hseeds, hsource⟩
  have ha := hbefore.isMarkFree haround hstart
  have hb := hdefine.isMarkFree haround ha
  obtain ⟨⟨f, hf, hsub⟩, hline, rfl, hearly⟩ := hdefine.plain_define rfl
  have hbody : MarkFree body := (ha.files f hf).of_subset hsub
  -- The first call is the run through the definition, and the second the one through the echo.
  have hruns := hbefore.trans (.move hdefine hbehind)
  subst hone
  obtain ⟨-, hone⟩ := Preprocessor.run_eq_of_runs hfirst hruns
  have hgood : good s.source := hruns.keepsGood haround.keeps hsource
  subst htwo
  rw [hone] at hsecond hbefore' ⊢
  obtain ⟨-, htwo⟩ := Preprocessor.run_eq_of_runs hsecond (hbefore'.trans hbehind')
  have hlate : s'.late.lookup? (TokenId.ofSpelling spelling) = some ⟨body, t.leadingMask body⟩ :=
    hbehind'.echo_kept haround hbody hline (hbehind.echoFree haround hb hnever)
      (hbefore'.keepsGood haround.keeps hgood) hnever' hkept'
  rw [htwo]
  refine ⟨hlate, fun hkept => ?_⟩
  have hfree : ∀ f ∈ b.files, EchoFree (TokenId.ofSpelling spelling) f.tokens := fun f hf =>
    .of_markFree (hb.files f hf)
  have hearly : s.early.lookup? (TokenId.ofSpelling spelling)
      = some ⟨body, Branch.maskAll a.state.branches⟩ :=
    (hbehind.current_kept haround hfree hb.source hnever hkept).trans hearly
  refine ⟨hearly, ?_⟩
  change s'.late.lookup? _ = s.early.lookup? _ ↔ _
  rw [hlate, hearly, Option.some.injEq, Definition.mk.injEq]
  exact and_iff_right rfl

/-- A definition in a file that is included inside a conditional for the second pass.  Its body
starts with the bit of the macro that the conditional asks for, so both passes leave the same
definition. -/
theorem echo_restores_body_included :
    let name := TokenId.ofSpelling [0x58]
    let inner : Bin := ⟨[0x62], 0, 0, .empty,
      [.lit TokenId.define, .lit name, .lit TokenId.one, .lit TokenId.eol]⟩
    let lib : Library := ⟨[], [], .little, [([0x62], inner)], ⟨[], []⟩⟩
    let platform : MacroTable := ⟨[(100, ⟨[], 1⟩)]⟩
    let p : Preprocessor Library :=
      ⟨⟨platform, fun _ => none, some Library.resolver⟩, .empty, .empty, .empty, .empty, .empty, []⟩
    let tokens : List Token :=
      [.lit TokenId.ifdefLate, .lit 100, .lit TokenId.includeFile, .lit 0x500, .lit TokenId.endif]
    ∃ one two, p.run Pass.first.number tokens ⟨[⟨0x500, [0x62]⟩]⟩ lib = one ∧
      (∃ out out', one.result = .ok out ∧
        one.after.run Pass.second.number out one.table one.source = two ∧ two.result = .ok out') ∧
      one.after.lookup? Pass.first.number [0x58] = some ⟨[.lit TokenId.one], 1⟩ ∧
      two.after.lookup? Pass.second.number [0x58] = some ⟨[.lit TokenId.one], 1⟩ := by
  intro name inner lib platform p tokens
  have hlib : lib.Gives fun b => MarkFree b.tokens := Library.gives_of_bins
    (fun _ _ b hb => isLit_of_ofSource hb) (.inl rfl) (List.forall_mem_singleton.mpr (by decide))
  let own : MacroTable := ⟨[(name, ⟨[.lit TokenId.one], 1⟩)]⟩
  let table : SpellingTable := ⟨[⟨0x500, [0x62]⟩]⟩
  let state : MacroTable → MacroTable → List Branch → PassState Library :=
    fun early late branches => ⟨early, late, table, branches, [], [], lib⟩
  let later : Branch := ⟨true, false, false, 1, 0⟩
  let live : Branch := ⟨false, true, false, 1, 0⟩
  let named : List Token := hide [.lit TokenId.includeFile, .lit 0x500]
  let emitted : List Token := hide (echo name [.lit TokenId.one])
  let a : Moment Library := ⟨[⟨[[0x62]], 1, 0, inner.tokens⟩, ⟨[], 0, 4, [.lit TokenId.endif]⟩],
    state .empty .empty [later]⟩
  let b : Moment Library := ⟨[⟨[[0x62]], 1, 4, []⟩, ⟨[], 0, 4, [.lit TokenId.endif]⟩],
    state own own [later]⟩
  have hstart : p.start .first table lib = state .empty .empty [] := by cbv
  have hif : step p.around .first [] 0 0 (.lit TokenId.ifdefLate) (tokens.drop 1)
      (state .empty .empty [])
        = .next 2 [.lit TokenId.ifdefLate, .lit 100] (state .empty .empty [later]) := by cbv
  have hinclude : step p.around .first [] 0 2 (.lit TokenId.includeFile) (tokens.drop 3)
      (state .empty .empty [later])
        = .enter 2 named [0x62] inner.tokens (state .empty .empty [later]) := by cbv
  have hstep : step p.around .first [[0x62]] 1 0 (.lit TokenId.define) (inner.tokens.drop 1)
      (state .empty .empty [later]) = .next 4 emitted (state own own [later]) := by cbv
  have hclose : step p.around .first [] 0 4 (.lit TokenId.endif) [] (state own own [later])
      = .next 1 [.lit TokenId.endif] (state own own []) := rfl
  have hshown : stepEvents (.lit TokenId.endif) [] [.lit TokenId.endif] (state own own [later])
      = [.shown TokenId.endif] := by cbv
  have hendif : Moves p.around .first ⟨[⟨[], 0, 4, [.lit TokenId.endif]⟩], state own own [later]⟩
      [.shown TokenId.endif] [.lit TokenId.endif] ⟨[⟨[], 0, 5, []⟩], state own own []⟩ :=
    hshown ▸ .next hclose
  have hbefore : Runs p.around .first ⟨[⟨[], 0, 0, tokens⟩], state .empty .empty []⟩ _ _ a :=
    .move (.next hif) (.move (.enter hinclude) (.refl _))
  rw [← hstart] at hbefore
  have hdefine : Moves p.around .first a [.defined name [.lit TokenId.one] false true] emitted b :=
    .next hstep
  have hbehind : Runs p.around .first b [.shown TokenId.endif] [.lit TokenId.endif]
      ⟨[], state own own []⟩ :=
    .move (.leave rfl) (.move hendif (.move (.leave rfl) (.refl _)))
  let out : List Token := .lit TokenId.ifdefLate :: .lit 100 ::
    (named ++ (emitted ++ [.lit TokenId.endif]))
  let q : Preprocessor Library := { p with early := own, late := own }
  have hone : p.run Pass.first.number tokens table lib = ⟨.ok out, table, [], [], q, lib⟩ := by cbv
  have hstart' : q.start .second table lib = state own .empty [] := by cbv
  have hif' : step p.around .second [] 0 0 (.lit TokenId.ifdefLate) (out.drop 1)
      (state own .empty []) = .next 2 (hide [.lit TokenId.ifdefLate, .lit 100])
        (state own .empty [live]) := by cbv
  have hnamed : step p.around .second [] 0 2 .skipOpen (out.drop 3)
      (state own .empty [live]) = .next 4 named (state own .empty [live]) := by cbv
  have hecho : step p.around .second [] 0 6 .skipOpen (out.drop 7)
      (state own .empty [live]) = .next 6 emitted (state own own [live]) := by cbv
  have hclose' : step p.around .second [] 0 12 (.lit TokenId.endif) [] (state own own [live])
      = .next 1 [.skipOne, .lit TokenId.endif] (state own own []) := rfl
  have hpassed : stepEvents .skipOpen (out.drop 7) emitted (state own .empty [live]) = [] := by cbv
  have hended : stepEvents (.lit TokenId.endif) [] [.skipOne, .lit TokenId.endif]
      (state own own [live]) = [] := by cbv
  have hunit : Moves p.around .second ⟨[⟨[], 0, 6, out.drop 6⟩], state own .empty [live]⟩ [] emitted
      ⟨[⟨[], 0, 12, [.lit TokenId.endif]⟩], state own own [live]⟩ := hpassed ▸ .next hecho
  have hendif' : Moves p.around .second ⟨[⟨[], 0, 12, [.lit TokenId.endif]⟩], state own own [live]⟩
      [] [.skipOne, .lit TokenId.endif] ⟨[⟨[], 0, 13, []⟩], state own own []⟩ :=
    hended ▸ .next hclose'
  have hbefore' : Runs p.around .second ⟨[⟨[], 0, 0, out⟩], state own .empty []⟩ _ _
      ⟨[⟨[], 0, 6, out.drop 6⟩], state own .empty [live]⟩ :=
    .move (.next hif') (.move (.next hnamed) (.refl _))
  rw [← hstart'] at hbefore'
  have hbehind' : Runs p.around .second ⟨[⟨[], 0, 6, out.drop 6⟩], state own .empty [live]⟩ [] _
      ⟨[], state own own []⟩ :=
    .move hunit (.move hendif' (.move (.leave rfl) (.refl _)))
  obtain ⟨out', htwo⟩ : ∃ out', (q.run Pass.second.number out table lib).result = .ok out' :=
    ⟨_, by cbv⟩
  obtain ⟨hlate, hearly⟩ := echo_restores_body p (Library.isMarkFree hlib rfl)
    MacroTable.bodied_empty (by decide) table .refl [0x58] hone rfl hbefore hdefine hbehind
    (by simp [NeverDefined]) rfl htwo hbefore' hbehind' (by simp [NeverDefined]) (by simp)
  have hbits : Branch.maskAll a.state.branches = 1 := by decide
  have hnumber : (state own .empty [live]).leadingMask [.lit TokenId.one] = 1 := by cbv
  rw [hbits] at hearly
  rw [hnumber] at hlate
  exact ⟨_, _, hone, ⟨out, out', rfl, rfl, htwo⟩, (hearly (by simp)).1, hlate⟩

/-- **The bits need not be those of the definition**: `#define X 1`, outside all conditionals,
depends on no condition, and the second pass enters it with the bit that the body names. -/
theorem echo_takes_leading_number :
    let tokens : List Token :=
      [.lit TokenId.define, .lit (TokenId.ofSpelling [0x58]), .lit TokenId.one, .lit TokenId.eol]
    let one := Preprocessor.bare.run Pass.first.number tokens .empty ()
    ∃ out, one.result = .ok out ∧
      one.after.lookup? Pass.first.number [0x58] = some ⟨[.lit TokenId.one], 0⟩ ∧
      (one.after.run Pass.second.number out one.table one.source).after.lookup?
        Pass.second.number [0x58] = some ⟨[.lit TokenId.one], 1⟩ := by
  refine ⟨_, by cbv, by cbv, ?_⟩
  cbv

end EffectScript
