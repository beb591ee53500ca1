import EffectScript.Proofs.Renewal

/-!
# The text between the passes

What the first pass leaves is not any text.  When directives stand only where directives belong
(`inPlace`), it is made of words, of the directives of conditionals that are for the second pass,
and of hidden units, of which only those that the first pass wrote for a definition start with one
(`HandedOver`).

Such a text can be cut at every place where the second pass cuts it: behind an expression, behind
the name of a variable, and behind dead text.  So no unit is torn, and what the second pass puts out
is well marked and shows words alone.

Main statements: `Deed.handsOver` for a step of the first pass, `Deed.resolves` for one of the
second.
-/

namespace EffectScript

variable {σ : Type}

/-! ## 1. Directives in their place -/

/-- Whether no directive is an operand of another: the name or a word of a definition, a word of an
expression or a text, the name of a file, a macro or a variable. -/
def inPlace : List Token → Bool
  | [] => true
  | t :: rest =>
    (match t.directive? with
      | some d => (d.operands rest).all fun u => (Directive.ofId? u.id).isNone
      | none => true) && inPlace rest

theorem inPlace_cons {t : Token} {rest : List Token} (h : inPlace (t :: rest)) :
    (∀ d, t.directive? = some d → ∀ u ∈ d.operands rest, Directive.ofId? u.id = none) ∧
      inPlace rest := by
  rw [inPlace, Bool.and_eq_true] at h
  refine ⟨fun d hd => ?_, h.2⟩
  have hall := h.1
  rw [hd] at hall
  simpa using hall

theorem inPlace_drop {tokens : List Token} (h : inPlace tokens) (n : Nat) :
    inPlace (tokens.drop n) := by
  induction n generalizing tokens with
  | zero => exact h
  | succ n ih =>
    cases tokens with
    | nil => exact h
    | cons t rest => exact ih (inPlace_cons h).2

/-- The operands of a directive other than a definition are the tokens behind it. -/
theorem take_operands {d : Directive} (hd : ∀ late, d ≠ .define late) (rest : List Token) :
    rest.take (d.operands rest).length = d.operands rest := by
  cases d with
  | define late => exact absurd rfl (hd late)
  | elseBranch => rfl
  | endif => rfl
  | _ => rw [Directive.operands, List.length_take, ← List.take_eq_take_min]

theorem Token.isLit_of_id {t : Token} (h : t.id ≠ TokenId.eol) : t.isLit := by
  cases t with
  | lit id => rfl
  | skipOne => exact absurd rfl h
  | skipOpen => exact absurd rfl h
  | skipClose => exact absurd rfl h

/-! ## 2. What is handed over -/

/-- A hidden text that the second pass may enter: a definition only if it is one of words. -/
def EchoesWords (inner : List Token) : Prop :=
  inner.head? = some (.lit TokenId.defineLate) →
    ∃ name body, inner = echo name body ∧ ∀ t ∈ body, t.ordinary?.isSome

/-- A text that the first pass may leave to the second. -/
inductive HandedOver : List Token → Prop
  | nil : HandedOver []
  | word {id : TokenId} {rest : List Token} (hid : Directive.ofId? id = none)
      (h : HandedOver rest) : HandedOver (.lit id :: rest)
  | directive {id : TokenId} {d : Directive} {rest : List Token}
      (hid : Directive.ofId? id = some d) (hd : d.isLeft)
      (hoperand : d = .elifVar → ∃ name after, rest = .lit name :: after)
      (h : HandedOver rest) : HandedOver (.lit id :: rest)
  | one (id : TokenId) {rest : List Token} (h : HandedOver rest) :
      HandedOver (.skipOne :: .lit id :: rest)
  | region {inner rest : List Token} (hinner : WellMarked inner) (hecho : EchoesWords inner)
      (h : HandedOver rest) : HandedOver (.skipOpen :: (inner ++ .skipClose :: rest))

namespace HandedOver

theorem append {xs ys : List Token} (hx : HandedOver xs) (hy : HandedOver ys) :
    HandedOver (xs ++ ys) := by
  induction hx with
  | nil => exact hy
  | word hid _ ih => exact .word hid ih
  | directive hid hd hoperand _ ih =>
    refine .directive hid hd (fun hvar => ?_) ih
    obtain ⟨name, after, rfl⟩ := hoperand hvar
    exact ⟨name, after ++ ys, rfl⟩
  | one id _ ih => exact .one id ih
  | region hinner hecho _ ih =>
    rw [List.cons_append, List.append_assoc, List.cons_append]
    exact .region hinner hecho ih

theorem wellMarked {xs : List Token} (h : HandedOver xs) : WellMarked xs := by
  induction h with
  | nil => exact .nil
  | word _ _ ih => exact .lit _ ih
  | directive _ _ _ _ ih => exact .lit _ ih
  | one id _ ih => exact .one id ih
  | region hinner _ _ ih => exact .region hinner ih

/-- What is visible is a word or may be left to the second pass. -/
theorem mem_visible {xs : List Token} (h : HandedOver xs) {id : TokenId} (hid : id ∈ visible xs) :
    Directive.ofId? id = none ∨ ∃ d, Directive.ofId? id = some d ∧ d.isLeft := by
  induction h with
  | nil =>
    rw [visible] at hid
    cases hid
  | word hnone _ ih =>
    rw [visible] at hid
    rcases List.mem_cons.mp hid with rfl | hid
    · exact .inl hnone
    · exact ih hid
  | directive hsome hd _ _ ih =>
    rw [visible] at hid
    rcases List.mem_cons.mp hid with rfl | hid
    · exact .inr ⟨_, hsome, hd⟩
    · exact ih hid
  | one _ _ ih =>
    rw [visible_mark rfl] at hid
    exact ih hid
  | region hinner _ _ ih =>
    rw [visible_region hinner] at hid
    exact ih hid

/-- Hidden text that the second pass may enter is handed over. -/
theorem of_hide {text : List Token} (hmarked : WellMarked text) (hecho : EchoesWords text) :
    HandedOver (hide text) := by
  unfold hide
  split
  · exact .nil
  · exact .one _ .nil
  · exact .region hmarked hecho .nil

/-- So are words. -/
theorem of_words {tokens : List Token} (h : ∀ t ∈ tokens, t.isLit ∧ Directive.ofId? t.id = none) :
    HandedOver tokens := by
  induction tokens with
  | nil => exact .nil
  | cons t rest ih =>
    obtain ⟨⟨hlit, hid⟩, hrest⟩ := List.forall_mem_cons.mp h
    cases t with
    | lit id => exact .word hid (ih hrest)
    | skipOne => cases hlit
    | skipOpen => cases hlit
    | skipClose => cases hlit

/-- It can be cut behind literal tokens, -/
theorem of_lits_append (xs : List Token) {ys : List Token} (hlits : ∀ t ∈ xs, t.isLit)
    (h : HandedOver (xs ++ ys)) : HandedOver ys := by
  induction xs with
  | nil => exact h
  | cons t xs ih =>
    obtain ⟨hlit, hrest⟩ := List.forall_mem_cons.mp hlits
    cases t with
    | lit id =>
      refine ih hrest ?_
      cases h with
      | word _ h => exact h
      | directive _ _ _ h => exact h
    | skipOne => cases hlit
    | skipOpen => cases hlit
    | skipClose => cases hlit

end HandedOver

/-- and behind dead text. -/
theorem HandedOver.of_deadLength? {xs : List Token} (h : HandedOver xs) {level dead : Nat}
    (hdead : deadLength? level xs = some dead) :
    WellMarked (xs.take dead) ∧ HandedOver (xs.drop dead) := by
  induction h generalizing level dead with
  | nil =>
    rw [deadLength?] at hdead
    cases hdead
  | word hid _ ih =>
    rw [deadLength?_quiet hid] at hdead
    obtain ⟨n, hn, rfl⟩ := Option.map_eq_some_iff.mp hdead
    obtain ⟨htake, hdrop⟩ := ih hn
    exact ⟨.lit _ htake, hdrop⟩
  | @directive id d rest hid hd hoperand hrest ih =>
    by_cases hzero : dead = 0
    · subst hzero
      exact ⟨.nil, .directive hid hd hoperand hrest⟩
    · -- A directive that does not end the dead text is passed over like a word.
      obtain ⟨level', n, hn, rfl⟩ : ∃ level' n, deadLength? level' rest = some n ∧
          dead = n + 1 := by
        rcases deadLength?_lit level id with hstop | ⟨level', hon⟩
        · rw [hstop] at hdead
          exact absurd (Option.some.inj hdead).symm hzero
        · rw [hon] at hdead
          obtain ⟨n, hn, rfl⟩ := Option.map_eq_some_iff.mp hdead
          exact ⟨level', n, hn, rfl⟩
      obtain ⟨htake, hdrop⟩ := ih hn
      exact ⟨.lit _ htake, hdrop⟩
  | one id _ ih =>
    rw [deadLength?_one] at hdead
    obtain ⟨n, hn, rfl⟩ := Option.map_eq_some_iff.mp hdead
    obtain ⟨htake, hdrop⟩ := ih hn
    exact ⟨.one id htake, hdrop⟩
  | @region inner rest hinner hecho _ ih =>
    rw [deadLength?_region level hinner] at hdead
    obtain ⟨n, hn, rfl⟩ := Option.map_eq_some_iff.mp hdead
    obtain ⟨htake, hdrop⟩ := ih hn
    rw [region_append, Nat.add_comm, ← length_region, List.take_length_add_append,
      List.drop_length_add_append]
    refine ⟨?_, hdrop⟩
    rw [List.cons_append, List.append_assoc, List.singleton_append]
    exact .region hinner htake

/-! ## 3. Steps of the first pass -/

theorem ordinary?_cases {t : Token} (h : t.ordinary?.isSome) :
    t.isLit ∧ Directive.ofId? t.id = none ∧ t.id.isOrdinary := by
  obtain ⟨w, hw⟩ := Option.isSome_iff_exists.mp h
  obtain rfl := Token.ordinary?_eq_some hw
  exact ⟨rfl, w.not_directive, w.ordinary⟩

theorem forget_worded_late {pass : Pass} {s : PassState σ} (h : s.late.Worded) (id : TokenId) :
    (s.forget pass id).late.Worded := by
  unfold PassState.forget
  split
  · cases pass with
    | first => exact h
    | second => exact h.erase id
  · split
    · exact h.erase id
    · exact h

/-- **A step of the first pass hands its output over**, when the directives of its file are in
place, and keeps both tables made of words. -/
theorem Deed.handsOver {first : Token} {rest emitted : List Token} {used : Nat}
    {s s' : PassState σ} (h : Deed .first first rest s used emitted s')
    (hlits : ∀ t ∈ first :: rest, t.isLit) (hplace : inPlace (first :: rest))
    (hearly : s.early.Worded) (hlate : s.late.Worded) :
    HandedOver emitted ∧ s'.early.Worded ∧ s'.late.Worded := by
  obtain ⟨hlit, hrest⟩ := List.forall_mem_cons.mp hlits
  have hoperands := (inPlace_cons hplace).1
  have hunit : ∀ {id : TokenId} {n : Nat}, first = .lit id → id ≠ TokenId.defineLate →
      HandedOver (hide ((.lit id :: rest).take (n + 1))) := by
    rintro id n rfl hid
    refine .of_hide (wellMarked_of_lits fun t ht => hlits t (List.mem_of_mem_take ht)) ?_
    intro hhead
    cases hhead
    exact absurd rfl hid
  cases h with
  | word hid =>
    refine ⟨.of_words fun t ht => ?_, hearly, hlate⟩
    obtain ⟨htlit, htid, -⟩ := ordinary?_cases (PassState.worded_expansion .first hearly hid t ht)
    exact ⟨htlit, htid⟩
  | ending => exact ⟨.nil, hearly, hlate⟩
  | unit hmark =>
    rw [hmark] at hlit
    cases hlit
  | @define id name late after _ hid =>
    have hbody : ∀ t ∈ bodyOf after, t.ordinary?.isSome :=
      ordinary_bodyOf (fun t ht => hrest t (List.mem_cons_of_mem _ ht))
        fun t ht => hoperands _ hid t (List.mem_append_right _ ht)
    refine ⟨?_, ?_, ?_⟩
    · simp only [if_true]
      refine .of_hide ?_ fun _ => ⟨name, _, rfl, hbody⟩
      exact .lit _ (.lit _ ((wellMarked_words hbody).append (.lit _ .nil)))
    · simp only [PassState.enterMacro]
      split
      · exact hearly.define name hbody
      · exact hearly
    · simp only [PassState.enterMacro]
      split
      · exact hlate
      · exact hlate.define name hbody
  | @undefine id name after _ hid =>
    have hne : id ≠ TokenId.defineLate := by
      rintro rfl
      cases hid
    exact ⟨hunit (n := 1) rfl hne, forget_worded hearly _, forget_worded_late hlate _⟩
  | @hidden id d _ _ _ branches log env hid hd hwords hused hsettled =>
    have hne : id ≠ TokenId.defineLate := by
      rintro rfl
      cases hid
      cases hd
    obtain ⟨n, rfl⟩ := hused.exists_succ
    exact ⟨hunit rfl hne, hearly, hlate⟩
  | @shown id d _ _ branches hid hd hoperand hwords hsettled =>
    have hdefine : ∀ late, d ≠ .define late := by
      rintro late rfl
      cases hd
    have htake := take_operands hdefine rest
    have hops : HandedOver (d.operands rest) := .of_words fun t ht =>
      ⟨hrest t (List.mem_of_mem_take (htake.symm ▸ ht)), hoperands d hid t ht⟩
    refine ⟨?_, hearly, hlate⟩
    rw [List.take_succ_cons, htake]
    refine .directive hid hd (fun hvar => ?_) hops
    subst hvar
    cases rest with
    | nil => exact absurd rfl (hoperand rfl)
    | cons t after =>
      have ht := hrest t List.mem_cons_self
      cases t with
      | lit name => exact ⟨name, [], rfl⟩
      | skipOne => cases ht
      | skipOpen => cases ht
      | skipClose => cases ht

/-! ## 4. Steps of the second pass -/

/-- A region that does not start with a late definition enters nothing. -/
theorem replay_region (s : PassState σ) {inner : List Token}
    (h : inner.head? ≠ some (.lit TokenId.defineLate)) :
    replay s (.skipOpen :: (inner ++ [.skipClose])) = s := by
  unfold replay
  split
  · rename_i directive id rest heq
    rw [if_neg]
    intro hboth
    obtain ⟨hdirective, -⟩ := Bool.and_eq_true_iff.mp hboth
    obtain rfl := of_decide_eq_true hdirective
    cases inner with
    | nil => cases heq
    | cons t inner =>
      injection heq with _ heq
      injection heq with ht _
      rw [ht] at h
      exact h rfl
  · rfl

theorem replay_worded {s : PassState σ} (hs : s.late.Worded) {inner : List Token}
    (h : EchoesWords inner) :
    (replay s (.skipOpen :: (inner ++ [.skipClose]))).late.Worded ∧
      (replay s (.skipOpen :: (inner ++ [.skipClose]))).branches = s.branches := by
  by_cases hhead : inner.head? = some (.lit TokenId.defineLate)
  · obtain ⟨name, body, rfl, hbody⟩ := h hhead
    have hhide : Token.skipOpen :: (echo name body ++ [.skipClose]) = hide (echo name body) := by
      simp [hide, echo]
    rw [hhide, replay_echo s name hbody]
    exact ⟨hs.define name hbody, rfl⟩
  · rw [replay_region s hhead]
    exact ⟨hs, rfl⟩

/-- The operands of a directive that was left to the second pass are literal tokens. -/
theorem isLit_operands {d : Directive} {rest : List Token} (hd : d.isLeft)
    (hoperand : d = .elifVar → ∃ name after, rest = .lit name :: after)
    (hwords : d.isTest → ∀ t ∈ d.operands rest, t.id ≠ TokenId.eol) :
    ∀ t ∈ d.operands rest, t.isLit := by
  cases d with
  | ifTest negated late => exact fun t ht => Token.isLit_of_id (hwords rfl t ht)
  | elifTest => exact fun t ht => Token.isLit_of_id (hwords rfl t ht)
  | elifVar =>
    obtain ⟨name, after, rfl⟩ := hoperand rfl
    intro t ht
    rw [List.mem_singleton.mp ht]
    rfl
  | elseBranch => rintro _ ⟨⟩
  | endif => rintro _ ⟨⟩
  | _ => cases hd

/-- A directive that is met in such a text is one that was left, and behind its operands the text
goes on as one. -/
theorem HandedOver.of_directive {id : TokenId} {d : Directive} {rest : List Token}
    (h : HandedOver (.lit id :: rest)) (hid : Directive.ofId? id = some d)
    (hwords : d.isTest → ∀ t ∈ d.operands rest, t.id ≠ TokenId.eol) :
    d.isLeft ∧ (∀ t ∈ d.operands rest, t.isLit) ∧
      rest.take (d.operands rest).length = d.operands rest ∧
      HandedOver (rest.drop (d.operands rest).length) := by
  cases h with
  | word hnone _ =>
    rw [hid] at hnone
    cases hnone
  | directive hid' hd hoperand hrest =>
    rw [hid] at hid'
    cases hid'
    have hdefine : ∀ late, d ≠ .define late := by
      rintro late rfl
      cases hd
    have hlits := isLit_operands hd hoperand hwords
    have htake := take_operands hdefine rest
    have hsplit := List.take_append_drop (d.operands rest).length rest
    rw [htake] at hsplit
    refine ⟨hd, hlits, htake, of_lits_append (d.operands rest) hlits ?_⟩
    rw [hsplit]
    exact hrest

theorem visible_words {tokens : List Token} (h : ∀ t ∈ tokens, t.ordinary?.isSome) :
    ∀ id ∈ visible tokens, id.isOrdinary := by
  intro id hid
  have hvisible := visible_renderOrdinary (tokens.filterMap Token.ordinary?) []
  rw [MacroTable.render_ordinary h, List.append_nil, visible, List.append_nil] at hvisible
  rw [hvisible] at hid
  obtain ⟨w, -, rfl⟩ := List.mem_map.mp hid
  exact w.ordinary

/-- **A step of the second pass resolves**: over a text that was handed over it puts out a
well-marked text that shows words alone, and what it leaves was handed over. -/
theorem Deed.resolves {first : Token} {rest emitted : List Token} {used : Nat}
    {s s' : PassState σ} (h : Deed .second first rest s used emitted s')
    (htext : HandedOver (first :: rest)) (hsettled : s.Settled) (hlate : s.late.Worded) :
    HandedOver (rest.drop (used - 1)) ∧ WellMarked emitted ∧
      (∀ id ∈ visible emitted, id.isOrdinary) ∧ s'.Settled ∧ s'.late.Worded := by
  have hbehind : first.isLit → HandedOver rest := fun hlit =>
    HandedOver.of_lits_append [first] (by simpa using hlit) htext
  cases h with
  | word hid =>
    have hwords := PassState.worded_expansion .second hlate hid
    exact ⟨hbehind rfl, wellMarked_words hwords, visible_words hwords, hsettled, hlate⟩
  | ending => exact ⟨hbehind rfl, .nil, visible_words (by simp), hsettled, hlate⟩
  | unit hmark =>
    cases htext with
    | word _ _ => cases hmark
    | directive _ _ _ _ => cases hmark
    | one id hrest => exact ⟨hrest, .one id .nil, by simp [visible, hiddenLength], hsettled, hlate⟩
    | @region inner rest hinner hecho hrest =>
      obtain ⟨hworded, hbranches⟩ := replay_worded hlate hecho
      have hdrop : (inner ++ .skipClose :: rest).drop (inner.length + 2 - 1) = rest :=
        drop_region inner rest
      rw [hiddenLength_region hinner, hdrop, region_append, ← length_region, List.take_left]
      refine ⟨hrest, .region hinner .nil, ?_, ?_, hworded⟩
      · rw [visible_region hinner, visible]
        simp
      · exact fun b hb => hsettled b (hbranches ▸ hb)
  | define hid =>
    obtain ⟨hd, -⟩ := htext.of_directive hid (by rintro ⟨⟩)
    cases hd
  | undefine hid =>
    obtain ⟨hd, -⟩ := htext.of_directive hid (by rintro ⟨⟩)
    cases hd
  | @hidden id d _ _ _ branches log env hid hd hwords hused hbranches =>
    obtain ⟨-, hlits, htake, hmore⟩ := htext.of_directive hid hwords
    have hops : WellMarked (.lit id :: d.operands rest) := .lit id (wellMarked_of_lits hlits)
    have hkept : HandedOver (rest.drop (used - 1)) ∧ WellMarked ((.lit id :: rest).take used) := by
      rcases hused with rfl | ⟨dead, hdead, rfl⟩
      · rw [List.take_succ_cons, htake]
        exact ⟨hmore, hops⟩
      · obtain ⟨hmarked, hleft⟩ := hmore.of_deadLength? hdead
        rw [Nat.add_right_comm, Nat.add_sub_cancel, List.take_succ_cons, List.take_add, htake,
          ← List.drop_drop]
        exact ⟨hleft, hops.append hmarked⟩
    refine ⟨hkept.1, hkept.2.hide, ?_, hbranches hsettled, hlate⟩
    rw [visible_hide hkept.2]
    simp
  | @shown id d _ _ branches hid hd hoperand hwords hleft =>
    obtain ⟨hpass, -⟩ := hleft hsettled
    cases hpass

end EffectScript
