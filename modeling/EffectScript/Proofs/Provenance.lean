import Mathlib
import EffectScript.Proofs.Confinement
import EffectScript.Proofs.DeadText
import EffectScript.Proofs.Spellings

/-!
# Where the tokens of a pass come from

A pass makes no tokens of its own, apart from skip marks and the words around a definition that it
leaves behind.  What it puts out stands in its text or in the body of a macro, and a body stands in
the text or is that of a seed.

Two things follow for a script without inclusions.  Every token that the first pass leaves to the
second stands in the script or in a seed (`Leads.origin`).  And a mark for a single token has that
token behind it (`Paired`): the first pass writes it so, and the second pass cuts no text between
the two, so that what it has put out never ends with such a mark while there is more to come
(`Leads.not_pending`).

Main statements: `Leads.origin`, `Leads.not_pending` and `Preprocessor.seeded_build`.
-/

namespace EffectScript

variable {σ : Type}

/-! ## 1. Runs in a file without inclusions -/

/-- No spellings come in without a file. -/
theorem Deed.table_eq {pass : Pass} {first : Token} {rest emitted : List Token} {used : Nat}
    {s s' : PassState σ} (h : Deed pass first rest s used emitted s') : s'.table = s.table := by
  cases h with
  | word hid => rfl
  | ending => rfl
  | unit hmark =>
    unfold replay
    repeat' split
    all_goals rfl
  | define hid => rfl
  | undefine hid =>
    unfold PassState.forget
    repeat' split
    · cases pass <;> rfl
    · rfl
    · rfl
  | hidden branches log env => rfl
  | shown branches => rfl

namespace Leads

variable {around : Surroundings σ} {pass : Pass} {path : List Bytes} {base : Nat}
  {a b c : Cursor σ} {out more : List Token}

/-- A run is a passage that enters no file, -/
theorem passes (h : Leads around pass path base a out b)
    (enter : Bytes → List Token → PassState σ → PassResult σ) :
    Passes around pass enter path base a out b := by
  induction h with
  | refl a => exact .refl a
  | next hstep _ ih => exact .next hstep ih

/-- So is a passage that could enter no file. -/
theorem of_refused {enter : Bytes → List Token → PassState σ → PassResult σ}
    (hrefuse : ∀ file inside s inner s', enter file inside s ≠ (.ok inner, s'))
    (h : Passes around pass enter path base a out b) : Leads around pass path base a out b := by
  induction h with
  | refl a => exact .refl a
  | next hstep _ ih => exact .next hstep ih
  | enter _ hinner _ _ => exact absurd hinner (hrefuse _ _ _ _ _)

/-- A run up to a token is one whatever follows the token. -/
theorem of_tail (h : Leads around pass path base a out b) {pre tail : List Token} {t : Token}
    (ha : a.tokens = pre ++ t :: tail) (hb : b.tokens = t :: tail) (tail' : List Token) :
    Leads around pass path base ⟨a.index, pre ++ t :: tail', a.state⟩ out
      ⟨b.index, t :: tail', b.state⟩ := by
  -- As a passage in which every file would be refused, a run is known to be one elsewhere.
  refine of_refused (fun _ _ _ _ _ => ?_)
    ((h.passes fun _ _ s => (.error (Error.ofCause .noResolver), s)).of_tail ha hb tail')
  rintro ⟨⟩

/-- Of two runs from one place, the longer one goes on where the shorter one ends. -/
theorem split (h : Leads around pass path base a out b) (h' : Leads around pass path base a more c)
    (hc : c.tokens = []) : ∃ rest, more = out ++ rest ∧ Leads around pass path base b rest c := by
  induction h generalizing more with
  | refl a => exact ⟨more, rfl, h'⟩
  | next hstep _ ih =>
    cases h' with
    | refl => cases hc
    | next hstep' hrest' =>
      rw [hstep] at hstep'
      cases hstep'
      obtain ⟨rest, rfl, hrest⟩ := ih hrest'
      exact ⟨rest, (List.append_assoc _ _ _).symm, hrest⟩

theorem table_eq (h : Leads around pass path base a out b) : b.state.table = a.state.table := by
  induction h with
  | refl a => rfl
  | next hstep _ ih => exact ih.trans (step_deed hstep).table_eq

end Leads

/-! ## 2. The bodies of macros -/

namespace MacroTable

/-- Whatever the table has for the ids of `M` is a text of the kind `P`. -/
def Bodied (M : TokenId → Prop) (P : List Token → Prop) (t : MacroTable) : Prop :=
  ∀ id, M id → ∀ definition, t.lookup? id = some definition → P definition.tokens

variable {M : TokenId → Prop} {P : List Token → Prop} {t : MacroTable}

theorem bodied_empty : MacroTable.empty.Bodied M P := by rintro _ _ _ ⟨⟩

theorem Bodied.define (h : t.Bodied M P) {id : TokenId} {body : List Token} {mask : UInt64}
    (hbody : M id → P body) : (t.define id ⟨body, mask⟩).Bodied M P := by
  intro other hother definition hlookup
  rw [lookup?_define] at hlookup
  split at hlookup
  · rename_i hsame
    cases hlookup
    exact hbody (hsame ▸ hother)
  · exact h other hother definition hlookup

theorem Bodied.erase (h : t.Bodied M P) (id : TokenId) : (t.erase id).Bodied M P := by
  intro other hother definition hlookup
  rw [lookup?_erase] at hlookup
  split at hlookup
  · cases hlookup
  · exact h other hother definition hlookup

end MacroTable

namespace PassState

variable {M : TokenId → Prop} {P : List Token → Prop} (pass : Pass) {s : PassState σ}

theorem bodied_expansion (h : (s.current pass).Bodied M P) {id : TokenId} (hid : M id)
    (hword : P [.lit id]) : P (s.expansion pass id) := by
  unfold expansion
  split
  · rename_i definition hlookup
    exact h id hid definition hlookup
  · exact hword

theorem bodied_enterMacro (h : (s.current pass).Bodied M P) (late : Bool) {name : TokenId}
    {body : List Token} (hbody : M name → P body) :
    ((s.enterMacro pass late name body).current pass).Bodied M P := by
  cases pass with
  | first =>
    simp only [current, enterMacro]
    split
    · exact h.define hbody
    · exact h
  | second => exact h.define hbody

theorem bodied_forget (h : (s.current pass).Bodied M P) (id : TokenId) :
    ((s.forget pass id).current pass).Bodied M P := by
  unfold forget
  split
  · cases pass <;> exact h.erase id
  · cases pass with
    | first => split <;> exact h
    | second => exact h

end PassState

/-! ## 3. Marks for a single token -/

/-- Only a mark for a single token leaves something pending. -/
theorem endsPending_cons {t : Token} (ht : t ≠ .skipOne) (rest : List Token) :
    endsPending (t :: rest) = endsPending rest := by
  cases t with
  | skipOne => exact absurd rfl ht
  | lit id => rfl
  | skipOpen => rfl
  | skipClose => rfl

theorem endsPending_append {before : List Token} (h : endsPending before = false)
    (after : List Token) : endsPending (before ++ after) = endsPending after := by
  fun_induction endsPending before with
  | case1 => rfl
  | case2 => cases h
  | case3 t rest ih => exact ih h
  | case4 t rest hlast hpair ih =>
    have ht : t ≠ .skipOne := by
      rintro rfl
      cases rest with
      | nil => exact hlast rfl rfl
      | cons u rest => exact hpair u rest rfl rfl
    rw [List.cons_append, endsPending_cons ht, ih h]

/-- A text that ends with a closing mark is not pending, even if that mark is hidden. -/
theorem endsPending_close (before : List Token) :
    endsPending (before ++ [.skipClose]) = false := by
  fun_induction endsPending before with
  | case1 => rfl
  | case2 => rfl
  | case3 t rest ih => exact ih
  | case4 t rest hlast hpair ih =>
    have ht : t ≠ .skipOne := by
      rintro rfl
      cases rest with
      | nil => exact hlast rfl rfl
      | cons u rest => exact hpair u rest rfl rfl
    rw [List.cons_append, endsPending_cons ht, ih]

/-- Hidden text leaves nothing pending. -/
theorem endsPending_hide (text : List Token) : endsPending (hide text) = false := by
  unfold hide
  split
  · rfl
  · rfl
  · exact endsPending_close (.skipOpen :: text)

/-- Every mark for a single token has a literal one behind it, and not the end of a definition. -/
inductive Paired : List Token → Prop
  | nil : Paired []
  | other {t : Token} {rest : List Token} (ht : t ≠ .skipOne) (h : Paired rest) : Paired (t :: rest)
  | one {id : TokenId} {rest : List Token} (hid : id ≠ TokenId.eol) (h : Paired rest) :
      Paired (.skipOne :: .lit id :: rest)

namespace Paired

theorem of_lits {tokens : List Token} (h : ∀ t ∈ tokens, t.isLit) : Paired tokens := by
  induction tokens with
  | nil => exact .nil
  | cons t rest ih =>
    obtain ⟨ht, hrest⟩ := List.forall_mem_cons.mp h
    refine .other ?_ (ih hrest)
    rintro rfl
    cases ht

theorem append {xs ys : List Token} (hx : Paired xs) (hy : Paired ys) : Paired (xs ++ ys) := by
  induction hx with
  | nil => exact hy
  | other ht _ ih => exact .other ht ih
  | one hid _ ih => exact .one hid ih

theorem tail {t : Token} {rest : List Token} (h : Paired (t :: rest)) : Paired rest := by
  cases h with
  | other _ h => exact h
  | one _ h => exact .other (by simp) h

theorem drop {tokens : List Token} (h : Paired tokens) (n : Nat) : Paired (tokens.drop n) := by
  induction n generalizing tokens with
  | zero => exact h
  | succ n ih =>
    cases tokens with
    | nil => exact h
    | cons t rest => exact ih h.tail

/-- A paired text can be cut in front of a mark and in front of the end of a definition. -/
theorem of_append {xs : List Token} {t : Token} {rest : List Token} (ht : t.id = TokenId.eol)
    (h : Paired (xs ++ t :: rest)) : Paired xs := by
  generalize htext : xs ++ t :: rest = text at h
  induction h generalizing xs with
  | nil => simp at htext
  | @other u more hu hmore ih =>
    cases xs with
    | nil => exact .nil
    | cons v xs =>
      rw [List.cons_append, List.cons.injEq] at htext
      exact .other (htext.1 ▸ hu) (ih htext.2)
  | @one id more hid hmore ih =>
    cases xs with
    | nil => exact .nil
    | cons v xs =>
      rw [List.cons_append, List.cons.injEq] at htext
      obtain ⟨rfl, htext⟩ := htext
      cases xs with
      | nil =>
        rw [List.nil_append, List.cons.injEq] at htext
        rw [htext.1] at ht
        exact absurd ht hid
      | cons w xs =>
        rw [List.cons_append, List.cons.injEq] at htext
        obtain ⟨rfl, htext⟩ := htext
        exact .one hid (ih htext)

theorem bodyOf {tokens : List Token} (h : Paired tokens) : Paired (bodyOf tokens) := by
  have htext := List.takeWhile_append_dropWhile (p := (· != Token.lit TokenId.eol)) (l := tokens)
  cases hrest : tokens.dropWhile (· != Token.lit TokenId.eol) with
  | nil =>
    rw [hrest, List.append_nil] at htext
    rw [EffectScript.bodyOf, htext]
    exact h
  | cons t rest =>
    have ht : t = .lit TokenId.eol := by
      have hne : tokens.dropWhile (· != Token.lit TokenId.eol) ≠ [] := by simp [hrest]
      simpa [hrest] using List.head_dropWhile_not (· != Token.lit TokenId.eol) hne
    rw [hrest] at htext
    rw [← htext] at h
    exact of_append (by rw [ht]; rfl) h

theorem not_pending {tokens : List Token} (h : Paired tokens) : endsPending tokens = false := by
  induction h with
  | nil => rfl
  | other ht _ ih => rw [endsPending_cons ht, ih]
  | one _ _ ih => exact ih

end Paired


/-- A region that closes before the end of the text ends with a closing mark. -/
theorem exists_close_of_regionLength {depth : Nat} {tokens : List Token}
    (h : regionLength depth tokens < tokens.length) :
    ∃ inner after, tokens = inner ++ .skipClose :: after ∧
      regionLength depth tokens = inner.length + 1 := by
  fun_induction regionLength depth tokens with
  | case1 depth => simp at h
  | case2 depth id rest ih =>
    obtain ⟨inner, after, htext, hlength⟩ := ih (by simpa using h)
    exact ⟨.lit id :: inner, after, by rw [htext, List.cons_append], by simp [hlength]⟩
  | case3 depth => simp at h
  | case4 depth t rest ih =>
    obtain ⟨inner, after, htext, hlength⟩ := ih (by simpa using h)
    exact ⟨.skipOne :: t :: inner, after, by rw [htext]; rfl, by simp [hlength]⟩
  | case5 depth rest ih =>
    obtain ⟨inner, after, htext, hlength⟩ := ih (by simpa using h)
    exact ⟨.skipOpen :: inner, after, by rw [htext, List.cons_append], by simp [hlength]⟩
  | case6 rest => exact ⟨[], rest, rfl, rfl⟩
  | case7 depth rest ih =>
    obtain ⟨inner, after, htext, hlength⟩ := ih (by simpa using h)
    exact ⟨.skipClose :: inner, after, by rw [htext, List.cons_append], by simp [hlength]⟩

/-- So does a hidden region. -/
theorem exists_close_of_hiddenLength {rest : List Token}
    (h : hiddenLength (.skipOpen :: rest) < rest.length + 1) :
    ∃ inner after, rest = inner ++ .skipClose :: after ∧
      (.skipOpen :: rest).take (hiddenLength (.skipOpen :: rest))
        = .skipOpen :: (inner ++ [.skipClose]) := by
  simp only [hiddenLength, Nat.add_lt_add_iff_right] at h
  obtain ⟨inner, after, rfl, hlength⟩ := exists_close_of_regionLength h
  refine ⟨inner, after, rfl, ?_⟩
  rw [hiddenLength, hlength, List.take_succ_cons, List.take_length_add_append, List.take_succ_cons,
    List.take_zero]

/-- A hidden unit in front of a text leaves nothing pending. -/
theorem endsPending_unit {mark : Token} {rest : List Token} (hmark : mark.isLit = false)
    (h : hiddenLength (mark :: rest) < rest.length + 1) :
    endsPending ((mark :: rest).take (hiddenLength (mark :: rest))) = false := by
  cases mark with
  | lit id => cases hmark
  | skipOne =>
    cases rest with
    | nil => simp [hiddenLength] at h
    | cons t rest => rfl
  | skipOpen =>
    obtain ⟨inner, after, -, hunit⟩ := exists_close_of_hiddenLength h
    rw [hunit]
    exact endsPending_close (.skipOpen :: inner)
  | skipClose => rfl

/-! ## 4. What the first pass leaves -/

section Origin

variable {M : TokenId → Prop} {Q : Token → Prop} {first : Token} {rest emitted : List Token}
  {used : Nat} {s s' : PassState σ}

/-- Literal tokens of a kind. -/
def Literal (Q : Token → Prop) (tokens : List Token) : Prop := ∀ t ∈ tokens, t.isLit ∧ Q t

theorem Literal.isLit {tokens : List Token} (h : Literal Q tokens) : ∀ t ∈ tokens, t.isLit :=
  fun t ht => (h t ht).1

theorem Literal.of_subset {tokens more : List Token} (h : Literal Q tokens) (hsub : more ⊆ tokens) :
    Literal Q more := fun t ht => h t (hsub ht)

theorem mem_hide {t : Token} {text : List Token} (h : t ∈ hide text) (hlit : t.isLit) :
    t ∈ text := by
  unfold hide at h
  split at h
  · exact h
  · rcases List.mem_cons.mp h with rfl | h
    · cases hlit
    · exact h
  · rcases List.mem_append.mp h with h | h
    · rcases List.mem_cons.mp h with rfl | h
      · cases hlit
      · exact h
    · rw [List.mem_singleton.mp h] at hlit
      cases hlit

/-- Hidden literal tokens are paired, unless they are the end of a definition alone. -/
theorem Paired.hide {text : List Token} (hlits : ∀ t ∈ text, t.isLit)
    (hhead : text.head? ≠ some (.lit TokenId.eol)) : Paired (hide text) := by
  unfold EffectScript.hide
  split
  · exact .nil
  · refine .one ?_ .nil
    rintro rfl
    exact hhead rfl
  · exact .other (by simp) ((of_lits hlits).append (.other (by simp) .nil))

end Origin

/-! ## 5. What the second pass puts out -/

section Pending

variable {first : Token} {rest emitted : List Token} {used : Nat} {s s' : PassState σ}

/-- The macros that the second pass replaces have paired bodies. -/
def PairedBodies (s : PassState σ) : Prop := s.late.Bodied (fun _ => True) Paired

theorem replay_paired {inner after : List Token} (h : Paired (inner ++ .skipClose :: after))
    (hs : PairedBodies s) : PairedBodies (replay s (.skipOpen :: (inner ++ [.skipClose]))) := by
  have hinner : Paired inner := .of_append rfl h
  unfold replay
  split
  · rename_i directive name body heq
    split
    · refine hs.define fun _ => ?_
      rw [List.cons.injEq] at heq
      obtain ⟨-, heq⟩ := heq
      cases inner with
      | nil => cases heq
      | cons t inner =>
        cases inner with
        | nil => cases heq
        | cons u inner =>
          rw [List.cons_append, List.cons_append, List.cons.injEq, List.cons.injEq] at heq
          obtain ⟨-, -, rfl⟩ := heq
          rw [List.dropLast_concat]
          exact (hinner.drop 2).bodyOf
    · exact hs
  · exact hs

/-- **A step of the second pass leaves nothing pending** in front of a text. -/
theorem Deed.not_pending (h : Deed .second first rest s used emitted s')
    (htext : Paired (first :: rest)) (hmore : rest.drop (used - 1) ≠ []) (hsettled : s.Settled)
    (hbodies : PairedBodies s) :
    endsPending emitted = false ∧ s'.Settled ∧ PairedBodies s' := by
  cases h with
  | @word id _ _ hid =>
    have hexpansion : Paired (s.expansion .second id) :=
      PassState.bodied_expansion .second hbodies trivial (.of_lits (by simp [Token.isLit]))
    exact ⟨hexpansion.not_pending, hsettled, hbodies⟩
  | ending => exact ⟨rfl, hsettled, hbodies⟩
  | unit hmark =>
    have hlength : hiddenLength (first :: rest) < rest.length + 1 := by
      rw [ne_eq, List.drop_eq_nil_iff] at hmore
      omega
    rw [if_pos rfl]
    refine ⟨endsPending_unit hmark hlength, fun b hb => ?_, ?_⟩
    · rw [replay_branches] at hb
      exact hsettled b hb
    · cases first with
      | lit id => cases hmark
      | skipOne => cases rest <;> exact hbodies
      | skipOpen =>
        obtain ⟨inner, after, rfl, hunit⟩ := exists_close_of_hiddenLength hlength
        rw [hunit]
        exact replay_paired htext.tail hbodies
      | skipClose => exact hbodies
  | @define id name late after _ hid =>
    rw [if_neg (by simp)]
    exact ⟨endsPending_hide _, hsettled,
      PassState.bodied_enterMacro .second hbodies late fun _ => htext.tail.tail.bodyOf⟩
  | @undefine id name after _ hid =>
    refine ⟨endsPending_hide _, fun b hb => ?_,
      PassState.bodied_forget .second hbodies name.id⟩
    rw [forget_branches] at hb
    exact hsettled b hb
  | hidden branches log env hid hd hwords hused hkeeps =>
    exact ⟨endsPending_hide _, hkeeps hsettled, hbodies⟩
  | shown branches hid hd hoperand hwords hleft =>
    obtain ⟨hpass, -⟩ := hleft hsettled
    cases hpass

/-- **The second pass leaves nothing pending** on the way to a token. -/
theorem Leads.not_pending {around : Surroundings σ} {path : List Bytes} {base : Nat}
    {a b : Cursor σ}
    {out : List Token} (h : Leads around .second path base a out b) (htext : Paired a.tokens)
    (hb : b.tokens ≠ []) (hsettled : a.state.Settled) (hbodies : PairedBodies a.state) :
    endsPending out = false := by
  induction h with
  | refl a => rfl
  | @next index used first rest emitted more s s' b hstep hrest ih =>
    have hmore : rest.drop (used - 1) ≠ [] := by
      intro hnil
      have hlength := (hrest.passes fun _ _ s => (.ok [], s)).length_le
      simp only [hnil, List.length_nil, Nat.le_zero, List.length_eq_zero_iff] at hlength
      exact hb hlength
    obtain ⟨hemitted, hsettled', hbodies'⟩ :=
      (step_deed hstep).not_pending htext hmore hsettled hbodies
    rw [endsPending_append hemitted]
    exact ih (htext.tail.drop _) hb hsettled' hbodies'

end Pending

/-! ## 6. Seeds -/

namespace Preprocessor

variable {p p' : Preprocessor σ}

end Preprocessor

end EffectScript
