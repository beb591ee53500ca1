import EffectScript.Declaration.Slicer
import EffectScript.Proofs.Marking

/-!
# Where an index stands

Declarations are found by scans over indices, and hidden units may stand between any two tokens.
Here an index is described by what is visible around it, and the description mentions no scan:
`Stands tokens i seen ahead` says that the tokens in front of `i` are well marked and show `seen`,
and that those from `i` on are well marked and show `ahead`.

A scan goes from one standing index to the next (`Stands.step`).  It takes a hidden unit as a whole
and looks at a visible token, so what it makes of the tokens between two standing indices depends on
what they show alone.

Main statements:

* `Crosses`, the stretches that a scan goes over, with the lemmas that put them together;
* `Stands.scan_alike`: where two texts show the same, a scan that does not jump ends alike in both;
* `Stands.visibleIds_eq`: what is visible between two standing indices.
-/

namespace EffectScript

/-! ## 1. Tokens by index -/

theorem tokenAt_append (before after : List Token) :
    tokenAt (before ++ after) before.length = after.head?.getD (.lit TokenId.eol) := by
  rw [tokenAt, if_neg (by omega), Int.toNat_natCast, List.getElem?_append_right (Nat.le_refl _),
    Nat.sub_self, List.head?_eq_getElem?]

theorem hiddenAt_append (before after : List Token) :
    hiddenAt (before ++ after) before.length = hiddenLength after := by
  rw [hiddenAt, if_neg (by omega), Int.toNat_natCast, List.drop_left]

/-- Behind the last token there is no mark, and the token there is the end of a definition. -/
theorem tokenAt_of_length_le {tokens : List Token} {i : Int} (h : tokens.length ≤ i) :
    tokenAt tokens i = .lit TokenId.eol := by
  rw [tokenAt, if_neg (by omega), List.getElem?_eq_none (by omega), Option.getD_none]

theorem hiddenAt_of_length_le {tokens : List Token} {i : Int} (h : tokens.length ≤ i) :
    hiddenAt tokens i = 0 := by
  rcases Nat.eq_zero_or_pos (hiddenAt tokens i) with hzero | hpos
  · exact hzero
  · have := lt_length_of_hiddenAt_pos hpos
    omega

/-- A literal token starts no hidden unit, and a mark does. -/
theorem hiddenAt_eq_zero_iff {tokens : List Token} {i : Int} :
    hiddenAt tokens i = 0 ↔ (tokenAt tokens i).isLit = true := by
  unfold hiddenAt tokenAt
  split
  · simp [Token.isLit]
  · rw [← List.head?_drop]
    rcases tokens.drop i.toNat with _ | ⟨⟨id⟩ | _ | _ | _, rest⟩
    · simp [hiddenLength, Token.isLit]
    · simp [hiddenLength, Token.isLit]
    · cases rest <;> simp [hiddenLength, Token.isLit]
    · simp [hiddenLength, Token.isLit]
    · simp [hiddenLength, Token.isLit]

theorem visibleFrom_of_hiddenAt {tokens : List Token} {i : Int} (h : hiddenAt tokens i = 0) :
    visibleFrom tokens i = i := by
  rw [visibleFrom, dif_neg (by omega)]

theorem visibleFrom_of_hidden {tokens : List Token} {i : Int} (h : 0 < hiddenAt tokens i) :
    visibleFrom tokens i = visibleFrom tokens (i + hiddenAt tokens i) := by
  rw [visibleFrom, dif_pos h]

/-- The tokens from an index on. -/
def Rest (tokens : List Token) (i : Int) (rest : List Token) : Prop :=
  0 ≤ i ∧ tokens.drop i.toNat = rest

namespace Rest

variable {tokens : List Token} {i : Int} {t : Token} {xs rest : List Token}

theorem drop (tokens : List Token) (n : Nat) : Rest tokens n (tokens.drop n) :=
  ⟨by omega, by rw [Int.toNat_natCast]⟩

theorem tokenAt_eq (h : Rest tokens i rest) :
    tokenAt tokens i = rest.head?.getD (.lit TokenId.eol) := by
  obtain ⟨hi, rfl⟩ := h
  rw [tokenAt, if_neg (by omega), List.head?_drop]

theorem append (h : Rest tokens i (xs ++ rest)) : Rest tokens (i + xs.length) rest := by
  obtain ⟨hi, hdrop⟩ := h
  refine ⟨by omega, ?_⟩
  rw [show (i + xs.length).toNat = i.toNat + xs.length by omega, ← List.drop_drop, hdrop,
    List.drop_left]

theorem tail (h : Rest tokens i (t :: rest)) : Rest tokens (i + 1) rest :=
  @append tokens i [t] rest h

end Rest

/-! ## 2. Standing indices -/

/-- The index `i` stands in a well-marked text behind the visible tokens `seen` and in front of the
visible tokens `ahead`. -/
def Stands (tokens : List Token) (i : Int) (seen ahead : List TokenId) : Prop :=
  ∃ before after, tokens = before ++ after ∧ i = before.length ∧
    WellMarked before ∧ visible before = seen ∧ WellMarked after ∧ visible after = ahead

theorem WellMarked.stands {tokens : List Token} (h : WellMarked tokens) :
    Stands tokens 0 [] (visible tokens) :=
  ⟨[], tokens, rfl, rfl, .nil, by rw [visible], h, rfl⟩

theorem WellMarked.length_visible_le {tokens : List Token} (h : WellMarked tokens) :
    (visible tokens).length ≤ tokens.length := by
  induction h with
  | nil => simp [visible]
  | lit id _ ih =>
    rw [visible, List.length_cons, List.length_cons]
    omega
  | @one id rest _ ih =>
    have hone : visible (Token.skipOne :: .lit id :: rest) = visible rest :=
      visible_hide_append (.lit id .nil) rest
    rw [hone, List.length_cons, List.length_cons]
    omega
  | region hinner _ _ ih =>
    rw [visible_region hinner, List.length_cons, List.length_append, List.length_cons]
    omega

namespace Stands

variable {tokens : List Token} {i : Int} {seen ahead : List TokenId}

theorem nonneg (h : Stands tokens i seen ahead) : 0 ≤ i := by
  obtain ⟨before, after, -, rfl, -⟩ := h
  omega

theorem le_length (h : Stands tokens i seen ahead) : i ≤ tokens.length := by
  obtain ⟨before, after, rfl, rfl, -⟩ := h
  rw [List.length_append]
  omega

theorem visible_eq (h : Stands tokens i seen ahead) : visible tokens = seen ++ ahead := by
  obtain ⟨before, after, rfl, -, hbefore, rfl, -, rfl⟩ := h
  exact hbefore.visible_append after

/-- Behind one more unit. -/
theorem after_unit {before unit rest : List Token} (hbefore : WellMarked before)
    (hunit : WellMarked unit) (hrest : WellMarked rest) :
    Stands (before ++ (unit ++ rest)) (before.length + unit.length) (visible before ++ visible unit)
      (visible rest) :=
  ⟨before ++ unit, rest, (List.append_assoc ..).symm, by simp, hbefore.append hunit,
    hbefore.visible_append unit, hrest, rfl⟩

/-- **What a standing index stands at**: the end, a hidden unit, or the next visible token. -/
theorem step (h : Stands tokens i seen ahead) :
    (i = tokens.length ∧ ahead = []) ∨
    (0 < hiddenAt tokens i ∧ Stands tokens (i + hiddenAt tokens i) seen ahead) ∨
    ∃ id rest, ahead = id :: rest ∧ hiddenAt tokens i = 0 ∧ tokenAt tokens i = .lit id ∧
      Stands tokens (i + 1) (seen ++ [id]) rest := by
  obtain ⟨before, after, rfl, rfl, hbefore, rfl, hafter, rfl⟩ := h
  rw [hiddenAt_append, tokenAt_append]
  cases hafter with
  | nil => exact .inl ⟨by simp, by rw [visible]⟩
  | @lit id rest hrest =>
    refine .inr (.inr ⟨id, visible rest, by rw [visible], rfl, rfl, ?_⟩)
    have hunit := after_unit hbefore (.lit id .nil) hrest
    rwa [show visible [Token.lit id] = [id] by rw [visible, visible]] at hunit
  | @one id rest hrest =>
    have hone := visible_hide_append (.lit id .nil)
    have hunit := after_unit hbefore (.one id .nil) hrest
    rw [show visible [Token.skipOne, .lit id] = [] from visible_hide (.lit id .nil),
      List.append_nil] at hunit
    refine .inr (.inl ⟨Nat.two_pos, ?_⟩)
    rw [show visible (Token.skipOne :: .lit id :: rest) = visible rest from hone rest]
    exact hunit
  | @region inner rest hinner hrest =>
    have hunit := after_unit hbefore (.region hinner .nil) hrest
    rw [visible_region hinner, show visible [] = [] by rw [visible], List.append_nil, length_region,
      ← region_append] at hunit
    rw [hiddenLength_region hinner, visible_region hinner]
    exact .inr (.inl ⟨by omega, hunit⟩)

/-- A visible token takes at least one index. -/
theorem add_length_le (h : Stands tokens i seen ahead) : i + ahead.length ≤ tokens.length := by
  obtain ⟨before, after, rfl, rfl, -, -, hafter, rfl⟩ := h
  have hle := hafter.length_visible_le
  simp only [List.length_append]
  omega

theorem length_seen_le (h : Stands tokens i seen ahead) : seen.length ≤ i := by
  obtain ⟨before, after, -, rfl, hbefore, rfl, -⟩ := h
  have hle := hbefore.length_visible_le
  omega

/-- The visible index from a standing one on stands in the same place. -/
theorem to_visible (h : Stands tokens i seen ahead) :
    Stands tokens (visibleFrom tokens i) seen ahead ∧ hiddenAt tokens (visibleFrom tokens i) = 0 ∧
      i ≤ visibleFrom tokens i := by
  -- Along the hidden units, of which each takes the index nearer to the end.
  induction hn : (tokens.length - i).toNat using Nat.strongRecOn generalizing i with
  | ind n ih =>
    rcases h.step with ⟨hend, -⟩ | ⟨hhidden, hnext⟩ | ⟨id, rest, -, hzero, -⟩
    · have hzero := hiddenAt_of_length_le (Int.le_of_eq hend.symm)
      rw [visibleFrom_of_hiddenAt hzero]
      exact ⟨h, hzero, Int.le_refl i⟩
    · have hbounds := lt_length_of_hiddenAt_pos hhidden
      rw [visibleFrom_of_hidden hhidden]
      obtain ⟨hstands, hzero, hle⟩ := ih _ (by omega) hnext rfl
      exact ⟨hstands, hzero, by omega⟩
    · rw [visibleFrom_of_hiddenAt hzero]
      exact ⟨h, hzero, Int.le_refl i⟩

/-- An index that stands at a visible token: the token, and the index behind it. -/
theorem at_visible {id : TokenId} {rest : List TokenId} (h : Stands tokens i seen (id :: rest))
    (hzero : hiddenAt tokens i = 0) :
    tokenAt tokens i = .lit id ∧ Stands tokens (i + 1) (seen ++ [id]) rest := by
  rcases h.step with ⟨-, hnil⟩ | ⟨hhidden, -⟩ | ⟨id', rest', heq, -, htoken, hnext⟩
  · cases hnil
  · omega
  · cases heq
    exact ⟨htoken, hnext⟩

/-- A visible index with nothing ahead is behind the last token. -/
theorem at_end (h : Stands tokens i seen []) (hzero : hiddenAt tokens i = 0) :
    i = tokens.length := by
  rcases h.step with ⟨hend, -⟩ | ⟨hhidden, -⟩ | ⟨id, rest, heq, -⟩
  · exact hend
  · omega
  · cases heq

theorem tokenAt_eq (h : Stands tokens i seen ahead) (hzero : hiddenAt tokens i = 0) :
    tokenAt tokens i = .lit (ahead.headD TokenId.eol) := by
  cases ahead with
  | nil => exact tokenAt_of_length_le (Int.le_of_eq (h.at_end hzero).symm)
  | cons id ahead => exact (h.at_visible hzero).1

end Stands

/-! ## 3. Steps of a scan -/

section Scans

variable {α : Type} {tokens : List Token} {last : Int} {look : α → Int → Token → Move α} {a b : α}
  {i : Int}

theorem scan_hidden (hle : i ≤ last) (h : 0 < hiddenAt tokens i) :
    scan tokens last look a i = scan tokens last look a (i + hiddenAt tokens i) := by
  rw [scan, dif_pos hle, if_pos h]

theorem scan_next (hle : i ≤ last) (hzero : hiddenAt tokens i = 0)
    (hlook : look a i (tokenAt tokens i) = .next b) :
    scan tokens last look a i = scan tokens last look b (i + 1) := by
  rw [scan, dif_pos hle, if_neg (by omega), hlook]

theorem scan_jump {index : Int} (hle : i ≤ last) (hzero : hiddenAt tokens i = 0)
    (hlook : look a i (tokenAt tokens i) = .jump b index) :
    scan tokens last look a i = scan tokens last look b (max i index + 1) := by
  rw [scan, dif_pos hle, if_neg (by omega), hlook]

theorem scan_stop (hle : i ≤ last) (hzero : hiddenAt tokens i = 0)
    (hlook : look a i (tokenAt tokens i) = .stop b) :
    scan tokens last look a i = ⟨b, i, true⟩ := by
  rw [scan, dif_pos hle, if_neg (by omega), hlook]

theorem scan_end (h : last < i) : scan tokens last look a i = ⟨a, i, false⟩ := by
  rw [scan, dif_neg (by omega)]

/-- A scan goes to the next visible index, unless that is beyond where it may end. -/
theorem Stands.scan_visibleFrom {seen ahead : List TokenId} (h : Stands tokens i seen ahead)
    (hlast : visibleFrom tokens i ≤ last + 1) :
    scan tokens last look a i = scan tokens last look a (visibleFrom tokens i) := by
  induction hn : (tokens.length - i).toNat using Nat.strongRecOn generalizing i with
  | ind n ih =>
    rcases Nat.eq_zero_or_pos (hiddenAt tokens i) with hzero | hhidden
    · rw [visibleFrom_of_hiddenAt hzero]
    · have hbounds := lt_length_of_hiddenAt_pos hhidden
      rcases h.step with ⟨hend, -⟩ | ⟨-, hnext⟩ | ⟨id, rest, -, hzero, -⟩
      · omega
      · rw [visibleFrom_of_hidden hhidden] at hlast ⊢
        have hle := hnext.to_visible.2.2
        rw [scan_hidden (by omega) hhidden]
        exact ih _ (by omega) hnext hlast rfl
      · omega

/-! ## 4. Stretches that a scan goes over -/

variable (tokens last look) in
/-- A scan in the state `a` goes over the visible tokens `xs` and is in the state `b` behind them,
wherever they stand.  What is ahead of them keeps them from reaching beyond `last`. -/
def Crosses (a : α) (xs : List TokenId) (b : α) : Prop :=
  ∀ i seen ahead, Stands tokens i seen (xs ++ ahead) →
    (tokens.length : Int) ≤ last + 1 + ahead.length →
    ∃ j, i ≤ j ∧ Stands tokens j (seen ++ xs) ahead ∧
      scan tokens last look a i = scan tokens last look b j

namespace Crosses

variable {c : α} {xs ys : List TokenId}

theorem nil (a : α) : Crosses tokens last look a [] a := by
  intro i seen ahead h _
  exact ⟨i, Int.le_refl i, by rwa [List.append_nil], rfl⟩

theorem append (hxs : Crosses tokens last look a xs b) (hys : Crosses tokens last look b ys c) :
    Crosses tokens last look a (xs ++ ys) c := by
  intro i seen ahead h hlast
  rw [List.append_assoc] at h
  obtain ⟨j, hij, hj, hscan⟩ := hxs i seen (ys ++ ahead) h (by rw [List.length_append]; omega)
  obtain ⟨k, hjk, hk, hscan'⟩ := hys j (seen ++ xs) ahead hj hlast
  exact ⟨k, by omega, by rwa [List.append_assoc] at hk, hscan.trans hscan'⟩

/-- One token that the scan looks at and goes on behind. -/
theorem next {id : TokenId} (hlook : ∀ i, look a i (.lit id) = .next b) :
    Crosses tokens last look a [id] b := by
  intro i seen ahead h hlast
  obtain ⟨hvisible, hzero, hle⟩ := h.to_visible
  have hlength := hvisible.add_length_le
  rw [List.length_append, List.length_singleton] at hlength
  obtain ⟨htoken, hnext⟩ := hvisible.at_visible hzero
  refine ⟨visibleFrom tokens i + 1, by omega, hnext, ?_⟩
  rw [h.scan_visibleFrom (by omega), scan_next (by omega) hzero (by rw [htoken]; exact hlook _)]

theorem cons {id : TokenId} (hlook : ∀ i, look a i (.lit id) = .next b)
    (hxs : Crosses tokens last look b xs c) : Crosses tokens last look a (id :: xs) c :=
  (next hlook).append hxs

/-- Tokens that the scan does not care for. -/
theorem idle (h : ∀ id ∈ xs, ∀ i, look a i (.lit id) = .next a) :
    Crosses tokens last look a xs a := by
  induction xs with
  | nil => exact nil a
  | cons id xs ih =>
    obtain ⟨hid, hxs⟩ := List.forall_mem_cons.mp h
    exact cons hid (ih hxs)

/-- The scan reaches the token behind a stretch. -/
theorem reach {y : TokenId} {seen ahead : List TokenId} (hxs : Crosses tokens last look a xs b)
    (h : Stands tokens i seen (xs ++ y :: ahead))
    (hlast : (tokens.length : Int) ≤ last + 2 + ahead.length) :
    ∃ j, i ≤ j ∧ Stands tokens j (seen ++ xs) (y :: ahead) ∧ hiddenAt tokens j = 0 ∧
      tokenAt tokens j = .lit y ∧ scan tokens last look a i = scan tokens last look b j := by
  obtain ⟨j, hij, hj, hscan⟩ := hxs i seen (y :: ahead) h (by rw [List.length_cons]; omega)
  obtain ⟨hvisible, hzero, hle⟩ := hj.to_visible
  have hlength := hvisible.add_length_le
  rw [List.length_cons] at hlength
  exact ⟨visibleFrom tokens j, by omega, hvisible, hzero, (hvisible.at_visible hzero).1,
    hscan.trans (hj.scan_visibleFrom (by omega))⟩

/-- The scan ends at the token behind a stretch. -/
theorem stop {y : TokenId} {seen ahead : List TokenId} (hxs : Crosses tokens last look a xs b)
    (hlook : ∀ i, look b i (.lit y) = .stop c) (h : Stands tokens i seen (xs ++ y :: ahead))
    (hlast : (tokens.length : Int) ≤ last + 1 + ahead.length) :
    ∃ j, i ≤ j ∧ Stands tokens j (seen ++ xs) (y :: ahead) ∧ hiddenAt tokens j = 0 ∧
      scan tokens last look a i = ⟨c, j, true⟩ := by
  obtain ⟨j, hij, hj, hzero, htoken, hscan⟩ := hxs.reach h (by omega)
  have hlength := hj.add_length_le
  rw [List.length_cons] at hlength
  exact ⟨j, hij, hj, hzero,
    hscan.trans (scan_stop (by omega) hzero (by rw [htoken]; exact hlook _))⟩

/-- A scan whose range may end right in front of the token behind a stretch ends at that token
too. -/
theorem index_eq {y : TokenId} {seen ahead : List TokenId} (hxs : Crosses tokens last look a xs b)
    (hlook : ∀ i, look b i (.lit y) = .stop c) (h : Stands tokens i seen (xs ++ y :: ahead))
    (hlast : (tokens.length : Int) ≤ last + 2 + ahead.length) :
    i ≤ (scan tokens last look a i).index ∧
      Stands tokens (scan tokens last look a i).index (seen ++ xs) (y :: ahead) := by
  obtain ⟨j, hij, hj, hzero, htoken, hscan⟩ := hxs.reach h hlast
  have hindex : (scan tokens last look b j).index = j := by
    rcases Int.lt_or_le last j with hlt | hle
    · rw [scan_end hlt]
    · rw [scan_stop hle hzero (by rw [htoken]; exact hlook j)]
  rw [hscan, hindex]
  exact ⟨hij, hj⟩

end Crosses

/-- The index of the quote that closes another one. -/
theorem Stands.closingQuote_eq {seen inner ahead : List TokenId}
    (h : Stands tokens (i + 1) seen (inner ++ TokenId.quote :: ahead))
    (hinner : TokenId.quote ∉ inner) (hlast : (tokens.length : Int) ≤ last + 1 + ahead.length) :
    i < closingQuote tokens last i ∧
      Stands tokens (closingQuote tokens last i + 1)
        (seen ++ (inner ++ [TokenId.quote])) ahead := by
  have hcross : Crosses tokens last
      (fun (_ : Unit) _ t => if t == .lit TokenId.quote then .stop () else .next ()) ()
        inner () := by
    refine .idle fun id hid i => if_neg ?_
    rw [beq_iff_eq, Token.lit.injEq]
    rintro rfl
    exact hinner hid
  obtain ⟨j, hij, hj, hzero, hscan⟩ := hcross.stop (c := ()) (fun _ => rfl) h hlast
  have heq : closingQuote tokens last i = j := by
    unfold closingQuote scanFor
    rw [hscan]
    rfl
  obtain ⟨-, hnext⟩ := hj.at_visible hzero
  rw [heq, ← List.append_assoc]
  exact ⟨by omega, hnext⟩

/-- A quoted run, for a scan that takes quoted runs as a whole. -/
theorem Crosses.quoted {inner : List TokenId}
    (hlook : ∀ i, look a i (.lit TokenId.quote) = .jump a (closingQuote tokens last i))
    (hinner : TokenId.quote ∉ inner) :
    Crosses tokens last look a (TokenId.quote :: (inner ++ [TokenId.quote])) a := by
  intro i seen ahead h hlast
  obtain ⟨hvisible, hzero, hle⟩ := h.to_visible
  have hlength := hvisible.add_length_le
  simp only [List.length_cons, List.length_append, List.length_nil] at hlength
  obtain ⟨htoken, hnext⟩ := hvisible.at_visible hzero
  have hnext' : Stands tokens (visibleFrom tokens i + 1) (seen ++ [TokenId.quote])
      (inner ++ TokenId.quote :: ahead) := by
    rw [List.append_cons inner]
    exact hnext
  obtain ⟨hlt, hbehind⟩ := hnext'.closingQuote_eq hinner hlast
  refine ⟨closingQuote tokens last (visibleFrom tokens i) + 1, by omega, ?_, ?_⟩
  · rwa [List.append_assoc] at hbehind
  · rw [h.scan_visibleFrom (by omega), scan_jump (by omega) hzero (by rw [htoken]; exact hlook _),
      show max (visibleFrom tokens i) (closingQuote tokens last (visibleFrom tokens i))
        = closingQuote tokens last (visibleFrom tokens i) by omega]

end Scans

/-! ## 5. Two texts that show the same -/

/-- **A scan that does not jump ends alike where two texts show the same.** -/
theorem Stands.scan_alike {α : Type} (look : α → Token → Move α) {A B : List Token}
    (hjump : ∀ a t b index, look a t ≠ .jump b index) {i k : Int} {seen seen' ahead : List TokenId}
    (hA : Stands A i seen ahead) (hB : Stands B k seen' ahead) (a : α) :
    let p := scan A (A.length - 1) (fun a _ t => look a t) a i
    let q := scan B (B.length - 1) (fun a _ t => look a t) a k
    p.state = q.state ∧
      (p.stopped = false ∧ q.stopped = false ∨
        p.stopped = true ∧ q.stopped = true ∧ i ≤ p.index ∧ ∃ xs y ys, ahead = xs ++ y :: ys ∧
          Stands A p.index (seen ++ xs) (y :: ys) ∧ hiddenAt A p.index = 0 ∧
          Stands B q.index (seen' ++ xs) (y :: ys) ∧ hiddenAt B q.index = 0) := by
  induction ahead generalizing i k seen seen' a with
  | nil =>
    intro p q
    obtain ⟨hvA, hzA, -⟩ := hA.to_visible
    obtain ⟨hvB, hzB, -⟩ := hB.to_visible
    have hendA := hvA.at_end hzA
    have hendB := hvB.at_end hzB
    have hp : p = ⟨a, _, false⟩ := (hA.scan_visibleFrom (by omega)).trans (scan_end (by omega))
    have hq : q = ⟨a, _, false⟩ := (hB.scan_visibleFrom (by omega)).trans (scan_end (by omega))
    rw [hp, hq]
    exact ⟨rfl, .inl ⟨rfl, rfl⟩⟩
  | cons id rest ih =>
    intro p q
    obtain ⟨hvA, hzA, hleA⟩ := hA.to_visible
    obtain ⟨hvB, hzB, -⟩ := hB.to_visible
    have hlA := hvA.add_length_le
    have hlB := hvB.add_length_le
    rw [List.length_cons] at hlA hlB
    obtain ⟨htA, hnA⟩ := hvA.at_visible hzA
    obtain ⟨htB, hnB⟩ := hvB.at_visible hzB
    have hp : p = scan A (A.length - 1) (fun a _ t => look a t) a (visibleFrom A i) :=
      hA.scan_visibleFrom (by omega)
    have hq : q = scan B (B.length - 1) (fun a _ t => look a t) a (visibleFrom B k) :=
      hB.scan_visibleFrom (by omega)
    cases hlook : look a (.lit id) with
    | stop b =>
      rw [scan_stop (by omega) hzA (by rw [htA]; exact hlook)] at hp
      rw [scan_stop (by omega) hzB (by rw [htB]; exact hlook)] at hq
      rw [hp, hq]
      exact ⟨rfl, .inr ⟨rfl, rfl, hleA, [], id, rest, rfl, by rwa [List.append_nil], hzA,
        by rwa [List.append_nil], hzB⟩⟩
    | next b =>
      rw [scan_next (by omega) hzA (by rw [htA]; exact hlook)] at hp
      rw [scan_next (by omega) hzB (by rw [htB]; exact hlook)] at hq
      rw [hp, hq]
      obtain ⟨hstate, hends⟩ := ih hnA hnB b
      refine ⟨hstate, ?_⟩
      rcases hends with hends | ⟨hsA, hsB, hle, xs, y, ys, rfl, hyA, hzA', hyB, hzB'⟩
      · exact .inl hends
      · rw [List.append_assoc] at hyA hyB
        exact .inr ⟨hsA, hsB, by omega, id :: xs, y, ys, rfl, hyA, hzA', hyB, hzB'⟩
    | jump b index => exact absurd hlook (hjump a _ b index)

/-! ## 6. What is visible between two standing indices -/

/-- What follows a well-marked part of a well-marked text is well marked. -/
theorem WellMarked.of_append {xs ys : List Token} (hxs : WellMarked xs)
    (h : WellMarked (xs ++ ys)) : WellMarked ys := by
  induction hxs with
  | nil => exact h
  | lit id _ ih =>
    cases h with
    | lit _ h => exact ih h
  | one id _ ih =>
    cases h with
    | one _ h => exact ih h
  | @region inner rest hinner _ _ ih =>
    rw [List.cons_append, List.append_assoc, List.cons_append] at h
    generalize htext : Token.skipOpen :: (inner ++ .skipClose :: (rest ++ ys)) = text at h
    cases h with
    | nil => cases htext
    | lit _ _ => cases htext
    | one _ _ => cases htext
    | @region inner' rest' hinner' hrest' =>
      -- Both readings of the region have its length, so they are the same one.
      have hlength : inner.length + 2 = inner'.length + 2 := by
        rw [← hiddenLength_region hinner (rest ++ ys), htext, hiddenLength_region hinner']
      have htail := List.append_inj (List.cons.inj htext).2 (by omega)
      obtain ⟨-, hrest⟩ := List.cons.inj htail.2
      exact ih (hrest ▸ hrest')

namespace Stands

variable {tokens : List Token} {i j : Int} {seen seen' ahead ahead' : List TokenId}

/-- The tokens between two standing indices are well marked. -/
theorem exists_mid (hi : Stands tokens i seen ahead) (hj : Stands tokens j seen' ahead')
    (hle : i ≤ j) :
    ∃ before mid after, tokens = before ++ (mid ++ after) ∧ i = before.length ∧
      j = before.length + mid.length ∧ WellMarked mid ∧ seen' = seen ++ visible mid ∧
      ahead = visible mid ++ ahead' := by
  obtain ⟨before, rest, rfl, rfl, hbefore, rfl, -, rfl⟩ := hi
  obtain ⟨upto, after, hsplit, rfl, hupto, rfl, -, rfl⟩ := hj
  obtain ⟨mid, rfl, rfl⟩ : ∃ mid, upto = before ++ mid ∧ rest = mid ++ after := by
    rcases List.append_eq_append_iff.mp hsplit with ⟨mid, h, h'⟩ | ⟨mid, h, h'⟩
    · exact ⟨mid, h, h'⟩
    · have hnil : mid = [] := by
        rw [h, List.length_append] at hle
        exact List.eq_nil_of_length_eq_zero (by omega)
      subst hnil
      exact ⟨[], by simpa using h.symm, by simpa using h'.symm⟩
  have hmid := hbefore.of_append hupto
  refine ⟨before, mid, after, rfl, rfl, ?_, hmid, hbefore.visible_append mid,
    hmid.visible_append after⟩
  rw [List.length_append]
  omega

/-- No hidden unit reaches across a standing index. -/
theorem add_hiddenAt_le (hi : Stands tokens i seen ahead) (hj : Stands tokens j seen' ahead')
    (hlt : i < j) : i + hiddenAt tokens i ≤ j := by
  obtain ⟨before, mid, after, rfl, rfl, rfl, hmid, -⟩ := hi.exists_mid hj (by omega)
  rw [hiddenAt_append]
  cases hmid with
  | nil => simp at hlt
  | lit id _ =>
    rw [List.cons_append, hiddenLength]
    omega
  | one id _ =>
    rw [List.cons_append, List.cons_append, hiddenLength, List.length_cons, List.length_cons]
    omega
  | region hinner _ =>
    rw [List.cons_append, List.append_assoc, List.cons_append, hiddenLength_region hinner]
    simp only [List.length_cons, List.length_append]
    omega

/-- The visible tokens in front of an index and behind it are determined by it. -/
theorem unique (h : Stands tokens i seen ahead) (h' : Stands tokens i seen' ahead') :
    seen = seen' ∧ ahead = ahead' := by
  obtain ⟨before, mid, after, -, rfl, hlength, -, rfl, rfl⟩ := h.exists_mid h' (Int.le_refl i)
  have hnil : mid = [] := List.eq_nil_of_length_eq_zero (by omega)
  subst hnil
  simp [visible]

/-- A scan that never ends collects what is visible between two standing indices. -/
theorem scan_collect (ids : List TokenId) {xs : List TokenId}
    (hi : Stands tokens i seen (xs ++ ahead))
    (hj : Stands tokens j (seen ++ xs) ahead) (hle : i ≤ j) :
    (scan tokens (j - 1) (fun ids _ t => .next (if t.isLit then t.id :: ids else ids)) ids i).state
      = xs.reverse ++ ids := by
  induction hn : (j - i).toNat using Nat.strongRecOn generalizing i seen xs ids with
  | ind n ih =>
    have hend := hj.le_length
    rcases Int.lt_or_eq_of_le hle with hlt | rfl
    · rcases hi.step with ⟨hlast, -⟩ | ⟨hhidden, hnext⟩ | ⟨id, rest, hahead, hzero, htoken, hnext⟩
      · omega
      · have hstep := hi.add_hiddenAt_le hj hlt
        rw [scan_hidden (by omega) hhidden]
        exact ih _ (by omega) ids hnext hj hstep rfl
      · obtain ⟨-, mid, -, -, -, -, -, hseen, hrest⟩ := hnext.exists_mid hj (by omega)
        rw [List.append_assoc, List.append_cancel_left_eq] at hseen
        subst hseen hrest
        rw [← List.append_assoc] at hj
        have hlook :
            (Move.next (if (tokenAt tokens i).isLit then (tokenAt tokens i).id :: ids else ids)
            : Move (List TokenId)) = .next (id :: ids) := by
          rw [htoken]
          rfl
        rw [scan_next (by omega) hzero hlook, ih _ (by omega) (id :: ids) hnext hj (by omega) rfl]
        simp
    · have hnil : xs = [] := by
        have hseen := (hi.unique hj).1
        simpa using hseen
      subst hnil
      rw [scan_end (by omega)]
      rfl

theorem visibleIds_eq {xs : List TokenId} (hi : Stands tokens i seen (xs ++ ahead))
    (hj : Stands tokens j (seen ++ xs) ahead) (hle : i ≤ j) : visibleIds tokens i (j - 1) = xs := by
  have hend := hj.le_length
  have hstart := hi.nonneg
  unfold visibleIds
  rw [show min (j - 1) ((tokens.length : Int) - 1) = j - 1 by omega, show max i 0 = i by omega,
    hi.scan_collect [] hj hle, List.append_nil, List.reverse_reverse]

end Stands

end EffectScript
