import EffectScript.Proofs.Pieces
import EffectScript.Proofs.Units

/-!
# The closer of a group

The inside of a group is found by one scan that counts open levels, takes what is between quotes as
a whole and steps over hidden units.  Here is the grammar of such an inside, and the proof that the
scan ends where the grammar says, in any text and in any frame.

The inside is a list of tokens with hidden units anywhere (`Inside`).  The scan goes over one at any
depth (`Inside.traverses`), and where it ends at all, such a text is behind it
(`scanGroup_stopped`).  The levels that are open on the way are a `Tower` of such texts.

Main statement: `groupPiece_matches`.
-/

namespace EffectScript

/-! ## 1. Units in a text -/

theorem regionLength_take {depth : Nat} {xs : List Token} (h : regionLength depth xs < xs.length)
    (ys : List Token) :
    regionLength depth (xs.take (regionLength depth xs) ++ ys) = regionLength depth xs := by
  fun_induction regionLength depth xs with
  | case1 => cases h
  | case2 depth id rest ih =>
    rw [List.take_succ_cons, List.cons_append, regionLength, ih (Nat.lt_of_succ_lt_succ h)]
  | case3 => exact absurd h (Nat.lt_irrefl 1)
  | case4 depth t rest ih =>
    have hrest : regionLength depth rest < rest.length := by
      simp only [List.length_cons] at h
      omega
    rw [List.take_succ_cons, List.take_succ_cons, List.cons_append, List.cons_append, regionLength,
      ih hrest]
  | case5 depth rest ih =>
    rw [List.take_succ_cons, List.cons_append, regionLength, ih (Nat.lt_of_succ_lt_succ h)]
  | case6 rest => rfl
  | case7 depth rest ih =>
    rw [List.take_succ_cons, List.cons_append, regionLength, ih (Nat.lt_of_succ_lt_succ h)]

/-- A unit that something follows is one whatever follows it. -/
theorem HiddenUnit.take {xs : List Token} (hpos : 0 < hiddenLength xs)
    (hlt : hiddenLength xs < xs.length) : HiddenUnit (xs.take (hiddenLength xs)) := by
  have hlength : (xs.take (hiddenLength xs)).length = hiddenLength xs := by
    rw [List.length_take]
    omega
  refine ⟨fun hnil => ?_, fun rest => ?_⟩
  · rw [hnil] at hlength
    exact absurd hlength.symm (Nat.ne_of_gt hpos)
  · rw [hlength]
    rcases xs with _ | ⟨⟨id⟩ | _ | _ | _, xs⟩
    · cases hpos
    · cases hpos
    · cases xs with
      | nil => exact absurd hlt (Nat.lt_irrefl 1)
      | cons t xs => rfl
    · rw [hiddenLength, List.take_succ_cons, List.cons_append, hiddenLength,
        regionLength_take (Nat.lt_of_succ_lt_succ hlt)]
    · rfl

namespace Rest

variable {tokens : List Token} {i : Int} {rest : List Token}

theorem hiddenAt_eq (h : Rest tokens i rest) : hiddenAt tokens i = hiddenLength rest := by
  obtain ⟨hi, rfl⟩ := h
  rw [hiddenAt, if_neg (by omega)]

theorem add_length (h : Rest tokens i rest) (hne : rest ≠ []) :
    i + rest.length = tokens.length := by
  obtain ⟨hi, rfl⟩ := h
  have hlt : i.toNat < tokens.length := by
    by_contra hge
    exact hne (List.drop_eq_nil_of_le (by omega))
  rw [List.length_drop]
  omega

theorem exists_cons (hi : 0 ≤ i) (hlt : i < tokens.length) :
    ∃ t rest, Rest tokens i (t :: rest) := by
  have hlt' : i.toNat < tokens.length := by omega
  exact ⟨_, _, hi, List.drop_eq_getElem_cons hlt'⟩

/-- At an index inside the text is a mark or a visible token. -/
theorem exists_of_lt (hi : 0 ≤ i) (hlt : i < tokens.length) :
    0 < hiddenAt tokens i ∨ ∃ id rest, hiddenAt tokens i = 0 ∧ tokenAt tokens i = .lit id ∧
      Rest tokens i (.lit id :: rest) := by
  obtain ⟨t, rest, hrest⟩ := exists_cons hi hlt
  rw [hrest.hiddenAt_eq]
  cases t with
  | lit id => exact .inr ⟨id, rest, rfl, hrest.tokenAt_eq, hrest⟩
  | skipOne => cases rest <;> exact .inl (by simp [hiddenLength])
  | skipOpen => exact .inl (Nat.succ_pos _)
  | skipClose => exact .inl Nat.one_pos

/-- The unit at an index, with what follows it. -/
theorem unit (hpos : 0 < hiddenAt tokens i) (h : Rest tokens (i + hiddenAt tokens i) rest)
    (hne : rest ≠ []) :
    ∃ unit, HiddenUnit unit ∧ (unit.length : Int) = hiddenAt tokens i ∧
      Rest tokens i (unit ++ rest) := by
  have hi := (lt_length_of_hiddenAt_pos hpos).1
  have hlength := h.add_length hne
  have hrest : Rest tokens i (tokens.drop i.toNat) := ⟨hi, rfl⟩
  have hdrop : (tokens.drop i.toNat).drop (hiddenAt tokens i) = rest := by
    rw [List.drop_drop, ← h.2]
    congr 1
    omega
  have hshort : hiddenAt tokens i < (tokens.drop i.toNat).length := by
    have := List.length_pos_iff.mpr hne
    rw [List.length_drop]
    omega
  refine ⟨(tokens.drop i.toNat).take (hiddenAt tokens i), ?_, ?_, ?_⟩
  · rw [hrest.hiddenAt_eq] at hpos hshort ⊢
    exact .take hpos hshort
  · rw [List.length_take]
    omega
  · rw [← hdrop, List.take_append_drop]
    exact hrest

end Rest

/-! ## 2. Stretches of tokens that a scan goes over -/

section Scans

variable {α : Type} {tokens : List Token} {last : Int} {look : α → Int → Token → Move α} {a b c : α}
  {i : Int} {text text' rest : List Token}

variable (tokens last look) in
/-- A scan in the state `a` goes over the tokens `text` and is in the state `b` behind them,
wherever they stand inside its range and whatever follows. -/
def Traverses (a : α) (text : List Token) (b : α) : Prop :=
  ∀ i rest, Rest tokens i (text ++ rest) → i + text.length ≤ last + 1 →
    scan tokens last look a i = scan tokens last look b (i + text.length)

namespace Traverses

theorem nil (a : α) : Traverses tokens last look a [] a := by
  intro i rest _ _
  rw [List.length_nil, Int.natCast_zero, Int.add_zero]

theorem append (h : Traverses tokens last look a text b)
    (h' : Traverses tokens last look b text' c) :
    Traverses tokens last look a (text ++ text') c := by
  intro i rest hi hle
  rw [List.append_assoc] at hi
  rw [List.length_append, Int.natCast_add, ← Int.add_assoc] at hle ⊢
  rw [h i _ hi (by omega), h' _ rest hi.append hle]

/-- One visible token. -/
theorem cons {id : TokenId} (hlook : ∀ i, look a i (.lit id) = .next b)
    (h : Traverses tokens last look b text c) :
    Traverses tokens last look a (.lit id :: text) c := by
  have hone : Traverses tokens last look a [.lit id] b := by
    intro i rest hi hle
    rw [List.length_singleton] at hle
    rw [scan_next (by omega) hi.hiddenAt_eq (by rw [hi.tokenAt_eq]; exact hlook i)]
    rfl
  exact hone.append h

/-- One hidden unit. -/
theorem hidden {unit : List Token} (hunit : HiddenUnit unit)
    (h : Traverses tokens last look a text b) : Traverses tokens last look a (unit ++ text) b := by
  refine append (fun i rest hi hle => ?_) h
  have hlength : hiddenAt tokens i = unit.length := by rw [hi.hiddenAt_eq, hunit.length_eq]
  have hpos := List.length_pos_iff.mpr hunit.nonempty
  rw [scan_hidden (by omega) (by omega), hlength]

/-- The scan ends at the token behind a stretch. -/
theorem stop {y : TokenId} (h : Traverses tokens last look a text b)
    (hlook : ∀ i, look b i (.lit y) = .stop c) (hi : Rest tokens i (text ++ .lit y :: rest))
    (hle : i + text.length ≤ last) : scan tokens last look a i = ⟨c, i + text.length, true⟩ := by
  have hy := hi.append
  rw [h i _ hi (by omega), scan_stop hle hy.hiddenAt_eq (by rw [hy.tokenAt_eq]; exact hlook _)]

end Traverses

/-- A scan that no token ended ended behind its range. -/
theorem scan_unstopped (a : α) (i : Int) (h : (scan tokens last look a i).stopped = false) :
    last < (scan tokens last look a i).index := by
  fun_induction scan tokens last look a i with
  | case1 a i hle hhidden ih => exact ih h
  | case2 a i hle hhidden b hlook => cases h
  | case3 a i hle hhidden b hlook ih => exact ih h
  | case4 a i hle hhidden b index hlook ih => exact ih h
  | case5 a i hlt => exact Int.not_le.mp hlt

/-- A text of hidden units and of visible tokens that all satisfy a condition. -/
inductive Showing (p : TokenId → Prop) : List Token → Prop
  | nil : Showing p []
  | token {id : TokenId} {rest : List Token} (hid : p id) : Showing p rest →
      Showing p (.lit id :: rest)
  | hidden {unit rest : List Token} (hunit : HiddenUnit unit) :
      Showing p rest → Showing p (unit ++ rest)

/-- Tokens that the scan does not care for. -/
theorem Showing.traverses {p : TokenId → Prop} (h : Showing p text)
    (hlook : ∀ id, p id → ∀ i, look a i (.lit id) = .next a) :
    Traverses tokens last look a text a := by
  induction h with
  | nil => exact .nil a
  | token hid _ ih => exact .cons (hlook _ hid) ih
  | hidden hunit _ ih => exact .hidden hunit ih

/-- The index of the quote that closes another one. -/
theorem Showing.closingQuote_eq (h : Showing (· ≠ TokenId.quote) text)
    (hi : Rest tokens (i + 1) (text ++ .lit TokenId.quote :: rest))
    (hle : i + 1 + text.length ≤ last) : closingQuote tokens last i = i + 1 + text.length := by
  have htraverses : Traverses tokens last
      (fun (_ : Unit) _ t => if t == .lit TokenId.quote then .stop () else .next ()) () text () :=
    h.traverses fun id hid _ => if_neg (by simpa using hid)
  unfold closingQuote scanFor
  rw [htraverses.stop (c := ()) (fun _ => rfl) hi hle]
  rfl

/-- A quoted run, for a scan that takes quoted runs as a whole. -/
theorem Traverses.quoted {inner : List Token}
    (hlook : ∀ i, look a i (.lit TokenId.quote) = .jump a (closingQuote tokens last i))
    (hinner : Showing (· ≠ TokenId.quote) inner) (h : Traverses tokens last look a text b) :
    Traverses tokens last look a (.lit TokenId.quote :: (inner ++ .lit TokenId.quote :: text))
      b := by
  have hsplit : Token.lit TokenId.quote :: (inner ++ .lit TokenId.quote :: text)
      = (.lit TokenId.quote :: (inner ++ [.lit TokenId.quote])) ++ text := by simp
  rw [hsplit]
  refine append (fun i rest hi hle => ?_) h
  simp only [List.cons_append, List.append_assoc] at hi
  simp only [List.length_cons, List.length_append, List.length_nil] at hle ⊢
  have hclosing : closingQuote tokens last i = i + 1 + inner.length :=
    hinner.closingQuote_eq hi.tail (by omega)
  rw [scan_jump (by omega) hi.hiddenAt_eq (by rw [hi.tokenAt_eq]; exact hlook i), hclosing]
  congr 1
  omega

end Scans

/-! ## 3. The inside of a group -/

/-- A text in which every `opener` has its `closer`, with hidden units anywhere and with quoted runs
opaque. -/
inductive Inside (opener closer : TokenId) : List Token → Prop
  | nil : Inside opener closer []
  | token {id : TokenId} {rest : List Token} (hopener : id ≠ opener) (hcloser : id ≠ closer)
      (hquote : id ≠ TokenId.quote) :
      Inside opener closer rest → Inside opener closer (.lit id :: rest)
  | hidden {unit rest : List Token} (hunit : HiddenUnit unit) :
      Inside opener closer rest → Inside opener closer (unit ++ rest)
  | quoted {inner rest : List Token} (hinner : Showing (· ≠ TokenId.quote) inner) :
      Inside opener closer rest →
      Inside opener closer (.lit TokenId.quote :: (inner ++ .lit TokenId.quote :: rest))
  | group {inner rest : List Token} : Inside opener closer inner → Inside opener closer rest →
      Inside opener closer (.lit opener :: (inner ++ .lit closer :: rest))

/-- What the scan for the closer of a group does at a token. -/
def groupLook (tokens : List Token) (last : Int) (opener closer : TokenId) (depth i : Int)
    (t : Token) : Move Int :=
  if t = .lit TokenId.quote ∧ opener ≠ TokenId.quote then .jump depth (closingQuote tokens last i)
  else if t = .lit closer then if depth = 1 then .stop 0 else .next (depth - 1)
  else if t = .lit opener then .next (depth + 1)
  else .next depth

section Groups

variable {tokens : List Token} {last i : Int} {opener closer id : TokenId} {text rest : List Token}

theorem scanGroup_eq_scan (tokens : List Token) (last : Int) (opener closer : TokenId) (i : Int) :
    Slicer.scanGroup tokens last opener closer i
      = scan tokens last (groupLook tokens last opener closer) 1 i :=
  rfl

theorem groupLook_other (hopener : id ≠ opener) (hcloser : id ≠ closer)
    (hquote : id ≠ TokenId.quote)
    (depth i : Int) : groupLook tokens last opener closer depth i (.lit id) = .next depth := by
  simp [groupLook, hopener, hcloser, hquote]

theorem groupLook_quote (hopener : opener ≠ TokenId.quote) (depth i : Int) :
    groupLook tokens last opener closer depth i (.lit TokenId.quote)
      = .jump depth (closingQuote tokens last i) :=
  if_pos ⟨rfl, hopener⟩

theorem groupLook_opener (hne : opener ≠ closer) (hopener : opener ≠ TokenId.quote)
    (depth i : Int) :
    groupLook tokens last opener closer depth i (.lit opener) = .next (depth + 1) := by
  simp [groupLook, hne, hopener]

theorem groupLook_closer (hcloser : closer ≠ TokenId.quote) (depth i : Int) :
    groupLook tokens last opener closer depth i (.lit closer)
      = if depth = 1 then .stop 0 else .next (depth - 1) := by
  simp [groupLook, hcloser]

/-- **The scan goes over the inside of a group**, at any depth. -/
theorem Inside.traverses (hne : opener ≠ closer) (hopener : opener ≠ TokenId.quote)
    (hcloser : closer ≠ TokenId.quote) (h : Inside opener closer text) (depth : Int)
    (hdepth : 1 ≤ depth) :
    Traverses tokens last (groupLook tokens last opener closer) depth text depth := by
  induction h generalizing depth with
  | nil => exact .nil depth
  | token ho hc hq _ ih => exact .cons (groupLook_other ho hc hq depth) (ih depth hdepth)
  | hidden hunit _ ih => exact .hidden hunit (ih depth hdepth)
  | quoted hinner _ ih => exact .quoted (groupLook_quote hopener depth) hinner (ih depth hdepth)
  | group _ _ ihinner ihrest =>
    have hclose : ∀ i, groupLook tokens last opener closer (depth + 1) i (.lit closer)
        = .next depth := by
      intro i
      rw [groupLook_closer hcloser, if_neg (by omega), Int.add_sub_cancel]
    have hbehind := Traverses.cons hclose (ihrest depth hdepth)
    exact .cons (groupLook_opener hne hopener depth)
      ((ihinner (depth + 1) (by omega)).append hbehind)

/-! ## 4. Where the scan ends -/

/-- The insides of `depth` groups that are still open, each but the last with its closer, behind the
inside of the innermost one. -/
inductive Tower (opener closer : TokenId) : Nat → List Token → Prop
  | base {text : List Token} : Inside opener closer text → Tower opener closer 0 text
  | level {text rest : List Token} {depth : Nat} : Inside opener closer text →
      Tower opener closer depth rest → Tower opener closer (depth + 1) (text ++ .lit closer :: rest)

/-- What may stand in front of an inside may stand in front of the innermost one. -/
theorem Tower.prepend {depth : Nat} {part : List Token}
    (hpart : ∀ text, Inside opener closer text → Inside opener closer (part ++ text))
    (h : Tower opener closer depth text) : Tower opener closer depth (part ++ text) := by
  cases h with
  | base htext => exact .base (hpart _ htext)
  | level htext hrest =>
    rw [← List.append_assoc]
    exact .level (hpart _ htext) hrest

/-- An opener takes the innermost group into the one around it. -/
theorem Tower.enter {depth : Nat} (h : Tower opener closer (depth + 1) text) :
    Tower opener closer depth (.lit opener :: text) := by
  cases h with
  | @level inner rest _ hinner hrest =>
    have hgroup : ∀ rest, Inside opener closer rest →
        Inside opener closer ((.lit opener :: (inner ++ [.lit closer])) ++ rest) := by
      intro rest hrest
      simpa using Inside.group hinner hrest
    have htower := hrest.prepend hgroup
    simpa using htower

/-- Where the scan for a token ends, that token is behind others. -/
theorem showing_of_scan {α : Type} {look : α → Int → Token → Move α} {a b : α} {y : TokenId}
    (hstop : ∀ i, look a i (.lit y) = .stop b)
    (hnext : ∀ id, id ≠ y → ∀ i, look a i (.lit id) = .next a)
    (hi : 0 ≤ i) (hlast : last < tokens.length) (h : (scan tokens last look a i).stopped = true) :
    ∃ text rest, Rest tokens i (text ++ .lit y :: rest) ∧ Showing (· ≠ y) text ∧
      (scan tokens last look a i).index = i + text.length := by
  induction hn : (last + 1 - i).toNat using Nat.strongRecOn generalizing i with
  | ind n ih =>
    have hbounds := scan_bounds _ _ h
    have hle : i ≤ last := by omega
    have hlt : i < tokens.length := by omega
    rcases Rest.exists_of_lt hi hlt with hpos | ⟨id, rest, hzero, htoken, hrest⟩
    · rw [scan_hidden hle hpos] at h ⊢
      obtain ⟨text, rest, hbehind, htext, hindex⟩ := ih _ (by omega) (by omega) h rfl
      obtain ⟨unit, hunit, hlength, hall⟩ := hbehind.unit hpos (by simp)
      refine ⟨unit ++ text, rest, by rwa [List.append_assoc], .hidden hunit htext, ?_⟩
      rw [hindex, List.length_append]
      omega
    · by_cases hid : id = y
      · subst hid
        rw [scan_stop hle hzero (by rw [htoken]; exact hstop i)]
        exact ⟨[], rest, hrest, .nil, by simp⟩
      · rw [scan_next hle hzero (by rw [htoken]; exact hnext id hid i)] at h ⊢
        obtain ⟨text, rest', hbehind, htext, hindex⟩ := ih _ (by omega) (by omega) h rfl
        have heq : rest = text ++ .lit y :: rest' := hrest.tail.2.symm.trans hbehind.2
        refine ⟨.lit id :: text, rest', by rwa [List.cons_append, ← heq], .token hid htext, ?_⟩
        rw [hindex, List.length_cons]
        omega

/-- A quote is closed by the next one inside the frame, or else the search for it ends with the
frame. -/
theorem closingQuote_cases (hi : 0 ≤ i) (hlast : last < tokens.length) :
    closingQuote tokens last i = last ∨
      ∃ inner rest, Rest tokens (i + 1) (inner ++ .lit TokenId.quote :: rest) ∧
        Showing (· ≠ TokenId.quote) inner ∧ closingQuote tokens last i = i + 1 + inner.length := by
  unfold closingQuote
  dsimp only
  split
  · rename_i hstopped
    exact .inr
      (showing_of_scan (fun _ => rfl) (fun id hid _ => if_neg (by simpa using hid)) (by omega)
      hlast hstopped)
  · exact .inl rfl

variable (tokens last opener closer) in
/-- The scan from an index on ends at a closer, which is behind the insides of `depth` open groups
and of one more. -/
def EndsBehind (depth : Nat) (i : Int) : Prop :=
  ∃ text rest, Rest tokens i (text ++ .lit closer :: rest) ∧ Tower opener closer depth text ∧
    (scan tokens last (groupLook tokens last opener closer) (depth + 1) i).index = i + text.length

/-- A scan that goes over a part of the text ends where it ends from behind that part. -/
theorem EndsBehind.prepend {depth d : Nat} {part : List Token}
    (hpart : Rest tokens i (part ++ rest))
    (hscan : scan tokens last (groupLook tokens last opener closer) (depth + 1) i
      = scan tokens last (groupLook tokens last opener closer) (d + 1) (i + part.length))
    (htower : ∀ text, Tower opener closer d text → Tower opener closer depth (part ++ text))
    (h : EndsBehind tokens last opener closer d (i + part.length)) :
    EndsBehind tokens last opener closer depth i := by
  obtain ⟨text, rest', hbehind, htext, hindex⟩ := h
  have heq : rest = text ++ .lit closer :: rest' := hpart.append.2.symm.trans hbehind.2
  refine ⟨part ++ text, rest', by rwa [List.append_assoc, ← heq], htower _ htext, ?_⟩
  rw [hscan, hindex, List.length_append]
  omega

/-- **Where the scan for a closer ends, the closer is behind the insides of all open groups.** -/
theorem scanGroup_stopped (hne : opener ≠ closer) (hopener : opener ≠ TokenId.quote)
    (hcloser : closer ≠ TokenId.quote) (depth : Nat) (hi : 0 ≤ i) (hlast : last < tokens.length)
    (h : (scan tokens last (groupLook tokens last opener closer) (depth + 1) i).stopped = true) :
    EndsBehind tokens last opener closer depth i := by
  induction hn : (last + 1 - i).toNat using Nat.strongRecOn generalizing i depth with
  | ind n ih =>
    have hbounds := scan_bounds _ _ h
    have hle : i ≤ last := by omega
    have hlt : i < tokens.length := by omega
    -- What the scan does at one part of the text, and the rest of the way.
    have hpart : ∀ (d : Nat) (part rest : List Token), Rest tokens i (part ++ rest) → part ≠ [] →
        scan tokens last (groupLook tokens last opener closer) (depth + 1) i
          = scan tokens last (groupLook tokens last opener closer) (d + 1) (i + part.length) →
        (∀ text, Tower opener closer d text → Tower opener closer depth (part ++ text)) →
        EndsBehind tokens last opener closer depth i := by
      intro d part rest hrest hnil hscan htower
      have hpos := List.length_pos_iff.mpr hnil
      exact .prepend hrest hscan htower (ih _ (by omega) d (by omega) (hscan ▸ h) rfl)
    rcases Rest.exists_of_lt hi hlt with hpos | ⟨id, rest, hzero, htoken, hrest⟩
    · have hscan : scan tokens last (groupLook tokens last opener closer) (depth + 1) i
          = scan tokens last _ _ (i + hiddenAt tokens i) := scan_hidden hle hpos
      have hinside := scan_bounds _ _ (hscan ▸ h)
      have hlt' : i + hiddenAt tokens i < tokens.length := by omega
      obtain ⟨t, rest, hbehind⟩ := Rest.exists_cons (by omega) hlt'
      obtain ⟨unit, hunit, hlength, hall⟩ := hbehind.unit hpos (List.cons_ne_nil _ _)
      exact hpart depth unit _ hall hunit.nonempty (hlength ▸ hscan) fun _ htext =>
        htext.prepend fun _ => .hidden hunit
    · have hlook : ∀ d : Nat, groupLook tokens last opener closer (depth + 1) i (.lit id)
          = .next (d + 1) →
          scan tokens last (groupLook tokens last opener closer) (depth + 1) i
            = scan tokens last (groupLook tokens last opener closer) (d + 1) (i + 1) :=
        fun d hd => scan_next hle hzero (htoken.symm ▸ hd)
      by_cases hquote : id = TokenId.quote
      · subst hquote
        have hjump : scan tokens last (groupLook tokens last opener closer) (depth + 1) i
            = scan tokens last _ _ (max i (closingQuote tokens last i) + 1) :=
          scan_jump hle hzero (htoken.symm ▸ groupLook_quote hopener (depth + 1) i)
        rcases closingQuote_cases hi hlast with hend | ⟨inner, rest', hinner, hshowing, hclosing⟩
        · -- A quote that is not closed takes the scan to the end of the frame.
          rw [hjump, hend, show max i last = last by omega, scan_end (by omega)] at h
          cases h
        · have heq : rest = inner ++ .lit TokenId.quote :: rest' := hrest.tail.2.symm.trans hinner.2
          refine hpart depth (.lit TokenId.quote :: (inner ++ [.lit TokenId.quote])) rest' ?_
            (List.cons_ne_nil _ _) ?_ fun _ htext => htext.prepend fun _ hbehind => ?_
          · rwa [List.cons_append, List.append_assoc, List.singleton_append, ← heq]
          · rw [hjump, hclosing]
            congr 1
            simp only [List.length_cons, List.length_append, List.length_nil]
            omega
          · simpa using Inside.quoted hshowing hbehind
      · by_cases hclose : id = closer
        · subst hclose
          cases depth with
          | zero =>
            refine ⟨[], rest, hrest, .base .nil, ?_⟩
            rw [scan_stop hle hzero (by rw [htoken]; exact groupLook_closer hquote _ i)]
            simp
          | succ d =>
            refine hpart d [.lit id] rest hrest (List.cons_ne_nil _ _) (hlook d ?_) fun _ =>
              .level .nil
            rw [groupLook_closer hquote, if_neg (by omega)]
            congr 1
            omega
        · by_cases hopen : id = opener
          · subst hopen
            exact hpart (depth + 1) [.lit id] rest hrest (List.cons_ne_nil _ _)
              (hlook _ (groupLook_opener hne hquote _ i)) fun _ => Tower.enter
          · exact hpart depth [.lit id] rest hrest (List.cons_ne_nil _ _)
              (hlook _ (groupLook_other hopen hclose hquote _ i)) fun _ htext =>
                htext.prepend fun _ => .token hopen hclose hquote

end Groups

/-! ## 5. What follows a group -/

/-- Hidden units one behind the other, up to a visible token or to the end of the text. -/
inductive HiddenRun : List Token → List Token → Prop
  | nil {tail : List Token} (htail : hiddenLength tail = 0) : HiddenRun [] tail
  | cons {unit run tail : List Token} (hne : unit ≠ [])
      (hunit : hiddenLength (unit ++ (run ++ tail)) = unit.length) :
      HiddenRun run tail → HiddenRun (unit ++ run) tail

/-- The first visible index is behind a run of hidden units. -/
theorem Rest.hiddenRun {tokens : List Token} {i : Int} {rest : List Token}
    (h : Rest tokens i rest) :
    ∃ run tail, rest = run ++ tail ∧ HiddenRun run tail ∧
      visibleFrom tokens i = i + run.length := by
  induction hn : (tokens.length - i).toNat using Nat.strongRecOn generalizing i rest with
  | ind n ih =>
    rcases Nat.eq_zero_or_pos (hiddenAt tokens i) with hzero | hpos
    · refine ⟨[], rest, rfl, .nil (h.hiddenAt_eq ▸ hzero), ?_⟩
      rw [visibleFrom_of_hiddenAt hzero]
      simp
    · have hle := hiddenAt_le hpos
      have hbounds := lt_length_of_hiddenAt_pos hpos
      have hlength : (rest.take (hiddenAt tokens i)).length = hiddenAt tokens i := by
        rw [← h.2, List.length_take, List.length_drop]
        omega
      have hbehind : Rest tokens (i + hiddenAt tokens i) (rest.drop (hiddenAt tokens i)) := by
        rw [← hlength]
        exact Rest.append (by rwa [hlength, List.take_append_drop])
      obtain ⟨run, tail, heq, hrun, hvisible⟩ := ih _ (by omega) hbehind rfl
      refine ⟨rest.take (hiddenAt tokens i) ++ run, tail, ?_, .cons ?_ ?_ hrun, ?_⟩
      · rw [List.append_assoc, ← heq, List.take_append_drop]
      · exact List.ne_nil_of_length_pos (by omega)
      · rw [← heq, List.take_append_drop, hlength, h.hiddenAt_eq]
      · rw [visibleFrom_of_hidden hpos, hvisible, List.length_append, hlength]
        omega

namespace Slicer

variable {s : Slicer} {opener closer : TokenId} {w rest : List Token}

/-- Passing a semicolon goes behind a run of hidden units, and behind a semicolon inside the
frame. -/
theorem passSemicolon_eq {i : Int} (h : Rest s.tokens i rest) :
    ∃ run tail, rest = run ++ tail ∧ HiddenRun run tail ∧
      s.passSemicolon i = s.moveTo (i + run.length +
        if i + run.length ≤ s.frame.last ∧ tail.head? = some (.lit TokenId.semicolon) then 1
          else 0) := by
  obtain ⟨run, tail, rfl, hrun, hvisible⟩ := h.hiddenRun
  refine ⟨run, tail, rfl, hrun, ?_⟩
  have htoken := h.append.tokenAt_eq
  have hsemicolon : tokenAt s.tokens (i + run.length) = .lit TokenId.semicolon ↔
      tail.head? = some (.lit TokenId.semicolon) := by
    rw [htoken]
    cases tail with
    | nil => exact ⟨fun h => absurd h (by decide), fun h => absurd h (by simp)⟩
    | cons t tail => simp
  unfold passSemicolon
  dsimp only
  rw [hvisible]
  by_cases hpass : i + run.length ≤ s.frame.last ∧ tail.head? = some (.lit TokenId.semicolon)
  · rw [if_pos hpass, if_pos ⟨hpass.1, hsemicolon.mpr hpass.2⟩]
  · rw [if_neg hpass, if_neg fun h => hpass ⟨h.1, hsemicolon.mp h.2⟩, Int.add_zero]

/-- Where the cursor is at a visible token, there is nothing to skip. -/
theorem skipHidden_of_visible (h : hiddenAt s.tokens s.frame.cursor = 0) : s.skipHidden = s := by
  rw [skipHidden, visibleFrom_of_hiddenAt h]
  rfl

theorem groupPiece_open (hcursor : Rest s.tokens s.frame.cursor (.lit opener :: rest))
    (hinside : s.frame.cursor ≤ s.frame.last) :
    s.groupPiece opener closer =
      let found := scanGroup s.tokens s.frame.last opener closer (s.frame.cursor + 1)
      let inside :=
        if found.stopped then Frame.ofBounds (s.frame.cursor + 1) (indexBefore found.index)
        else Frame.empty
      (if inside.isEmpty then Frame.empty else inside,
        s.passSemicolon
          (if found.stopped then indexAfter s.tokens.length found.index else found.index)) := by
  have hlength := hcursor.add_length (List.cons_ne_nil _ _)
  rw [List.length_cons] at hlength
  have hopen : ¬ (s.frame.last < s.frame.cursor ∨ s.here ≠ .lit opener) := by
    rintro (hbeyond | hother)
    · omega
    · exact hother hcursor.tokenAt_eq
  unfold groupPiece
  rw [skipHidden_of_visible hcursor.hiddenAt_eq]
  dsimp only
  rw [if_neg hopen, indexAfter_of_lt (by omega)]

/-- The inside of a group that the scan goes over. -/
theorem groupPiece_of_traverses
    (hcursor : Rest s.tokens s.frame.cursor (.lit opener :: (w ++ .lit closer :: rest)))
    (hinside : s.frame.cursor + w.length + 1 ≤ s.frame.last)
    (hclose : ∀ i, groupLook s.tokens s.frame.last opener closer 1 i (.lit closer) = .stop 0)
    (hw : Traverses s.tokens s.frame.last (groupLook s.tokens s.frame.last opener closer) 1 w 1) :
    s.groupPiece opener closer =
      (if w = [] then Frame.empty
        else Frame.ofBounds (s.frame.cursor + 1) (s.frame.cursor + w.length),
        s.passSemicolon (s.frame.cursor + w.length + 2)) := by
  have hstart := hcursor.1
  have hlength := hcursor.add_length (List.cons_ne_nil _ _)
  simp only [List.length_cons, List.length_append] at hlength
  have hscan : scanGroup s.tokens s.frame.last opener closer (s.frame.cursor + 1)
      = ⟨0, s.frame.cursor + 1 + w.length, true⟩ :=
    hw.stop hclose hcursor.tail (by omega)
  have hbefore : indexBefore (s.frame.cursor + 1 + w.length) = s.frame.cursor + w.length := by
    unfold indexBefore leastIndex
    rw [if_neg (by omega)]
    omega
  have hempty : (Frame.ofBounds (s.frame.cursor + 1) (s.frame.cursor + w.length)).isEmpty = true ↔
      w = [] := by
    rw [Frame.isEmpty, decide_eq_true_iff, ← List.length_eq_zero_iff]
    show s.frame.cursor + w.length < s.frame.cursor + 1 ↔ _
    omega
  rw [groupPiece_open hcursor (by omega), hscan]
  dsimp only
  rw [if_pos rfl, if_pos rfl, hbefore, indexAfter_of_lt (by omega),
    show s.frame.cursor + 1 + (w.length : Int) + 1 = s.frame.cursor + w.length + 2 by omega]
  congr 1
  simp only [hempty]

/-- Where the scan does not end inside the frame, no group is read and the cursor is behind the
frame. -/
theorem groupPiece_unclosed (hcursor : Rest s.tokens s.frame.cursor (.lit opener :: rest))
    (hinside : s.frame.cursor ≤ s.frame.last)
    (hscan : (scanGroup s.tokens s.frame.last opener closer (s.frame.cursor + 1)).stopped = false) :
    (s.groupPiece opener closer).1 = Frame.empty ∧
      ∃ i, s.frame.last < i ∧ (s.groupPiece opener closer).2 = s.moveTo i := by
  have hstart := hcursor.1
  have hbeyond : s.frame.last
      < (scanGroup s.tokens s.frame.last opener closer (s.frame.cursor + 1)).index :=
    scan_unstopped _ _ hscan
  have hrest : Rest s.tokens
      (scanGroup s.tokens s.frame.last opener closer (s.frame.cursor + 1)).index _ :=
    ⟨by omega, rfl⟩
  obtain ⟨run, tail, -, -, hpass⟩ := passSemicolon_eq hrest
  rw [groupPiece_open hcursor hinside]
  simp only [hscan, Bool.false_eq_true, if_false]
  refine ⟨rfl, _, ?_, hpass⟩
  split <;> omega

end Slicer

/-- **The closer of a group is found.**  Where the cursor is at an opener, the group is read up to
the closer that is behind an inside, whatever follows: the frame is that of the inside, empty if
this is, and the cursor goes behind the closer, the hidden units that follow it and one semicolon,
if it is inside the frame.  If no closer inside the frame is behind an inside, no frame is read and
the cursor goes behind the frame. -/
theorem groupPiece_matches (s : Slicer) (opener closer : TokenId) (hne : opener ≠ closer)
    (hopener : opener ≠ TokenId.quote) (hcloser : closer ≠ TokenId.quote) (behind : List Token)
    (hcursor : Rest s.tokens s.frame.cursor (.lit opener :: behind))
    (hinside : s.frame.cursor ≤ s.frame.last) :
    (∀ w rest, behind = w ++ .lit closer :: rest → Inside opener closer w →
      s.frame.cursor + w.length + 1 ≤ s.frame.last →
      ((s.groupPiece opener closer).1.isEmpty = true ↔ w = []) ∧
      ∃ run tail, rest = run ++ tail ∧ HiddenRun run tail ∧
        s.groupPiece opener closer =
          (if w = [] then Frame.empty
            else Frame.ofBounds (s.frame.cursor + 1) (s.frame.cursor + w.length),
          s.moveTo (s.frame.cursor + w.length + 2 + run.length +
            if s.frame.cursor + w.length + 2 + run.length ≤ s.frame.last ∧
              tail.head? = some (.lit TokenId.semicolon) then 1 else 0))) ∧
    (s.frame.last < s.tokens.length →
      (∀ w rest, behind = w ++ .lit closer :: rest → Inside opener closer w →
        s.frame.last < s.frame.cursor + w.length + 1) →
      (s.groupPiece opener closer).1 = Frame.empty ∧
        ∃ i, s.frame.last < i ∧ (s.groupPiece opener closer).2 = s.moveTo i) := by
  constructor
  · rintro w rest rfl hw hlast
    have hread :=
      Slicer.groupPiece_of_traverses hcursor hlast (fun i => groupLook_closer hcloser 1 i)
      (hw.traverses hne hopener hcloser 1 (Int.le_refl 1))
    have hrest : Rest s.tokens (s.frame.cursor + w.length + 2) rest := by
      have htail := hcursor.tail.append.tail
      rwa [show s.frame.cursor + 1 + (w.length : Int) + 1 = s.frame.cursor + w.length + 2 by omega]
        at htail
    obtain ⟨run, tail, hsplit, hrun, hpass⟩ := Slicer.passSemicolon_eq hrest
    refine ⟨?_, run, tail, hsplit, hrun, by rw [hread, hpass]⟩
    rw [hread]
    by_cases hnil : w = []
    · simp [hnil, Frame.empty, Frame.isEmpty]
    · have hpos := List.length_pos_iff.mpr hnil
      simp only [hnil, if_false, iff_false, Frame.isEmpty, Frame.ofBounds, decide_eq_true_iff]
      omega
  · intro hlast hnone
    refine Slicer.groupPiece_unclosed hcursor hinside (Bool.eq_false_iff.mpr fun hstopped => ?_)
    have hstart := hcursor.1
    obtain ⟨w, rest, hrest, hw, hindex⟩ :=
      scanGroup_stopped hne hopener hcloser 0 (by omega) hlast hstopped
    have hbounds : (Slicer.scanGroup s.tokens s.frame.last opener closer (s.frame.cursor + 1)).index
        ≤ s.frame.last := (scan_bounds _ _ hstopped).2
    have hindex' : (Slicer.scanGroup s.tokens s.frame.last opener closer (s.frame.cursor + 1)).index
        = s.frame.cursor + 1 + w.length := hindex
    cases hw with
    | base hw =>
      have hbeyond := hnone w rest (hcursor.tail.2.symm.trans hrest.2) hw
      omega

/-- A group with a hidden and a quoted closer and with another group inside, in front of a hidden
unit and a semicolon; and a group whose closer is behind the frame. -/
theorem groupPiece_matches_braces :
    let w : List Token := [.lit 44, .skipOne, .lit TokenId.rightBrace, .lit TokenId.quote,
      .lit TokenId.rightBrace, .lit TokenId.quote, .lit TokenId.leftBrace, .lit 45,
        .lit TokenId.rightBrace]
    let rest : List Token := [.skipOne, .lit 46, .lit TokenId.semicolon, .lit 47]
    let s := Slicer.ofTokens (.lit TokenId.leftBrace :: (w ++ .lit TokenId.rightBrace :: rest)) ⟨[]⟩
    let t :=
      (Slicer.ofTokens [.lit TokenId.leftBrace, .lit 44, .lit TokenId.rightBrace] ⟨[]⟩).setFrame
      (Frame.ofBounds 0 1)
    Inside TokenId.leftBrace TokenId.rightBrace w ∧
      (s.groupPiece TokenId.leftBrace TokenId.rightBrace).1 = Frame.ofBounds 1 9 ∧
      (∃ run tail, rest = run ++ tail ∧ HiddenRun run tail ∧
        (s.groupPiece TokenId.leftBrace TokenId.rightBrace).2 = s.moveTo (11 + run.length +
          if 11 + (run.length : Int) ≤ 14 ∧ tail.head? = some (.lit TokenId.semicolon) then 1
          else 0)) ∧
      (t.groupPiece TokenId.leftBrace TokenId.rightBrace).1 = Frame.empty ∧
      ∃ i, 1 < i ∧ (t.groupPiece TokenId.leftBrace TokenId.rightBrace).2 = t.moveTo i := by
  intro w rest s t
  have hquoted : Showing (· ≠ TokenId.quote) [.lit TokenId.rightBrace] := .token (by decide) .nil
  have hinner : Inside TokenId.leftBrace TokenId.rightBrace [.lit 45] :=
    .token (by decide) (by decide) (by decide) .nil
  have hw : Inside TokenId.leftBrace TokenId.rightBrace w :=
    .token (by decide) (by decide) (by decide)
      (.hidden (.one (.lit TokenId.rightBrace)) (.quoted hquoted (.group hinner .nil)))
  obtain ⟨-, run, tail, hsplit, hrun, hread⟩ :=
    (groupPiece_matches s TokenId.leftBrace TokenId.rightBrace
    (by decide) (by decide) (by decide) _ ⟨by decide, rfl⟩ (by decide)).1 w rest rfl hw (by decide)
  obtain ⟨hempty, i, hi, hmoved⟩ := (groupPiece_matches t TokenId.leftBrace TokenId.rightBrace
    (by decide) (by decide) (by decide) _ ⟨by decide, rfl⟩ (by decide)).2 (by decide) (by
      intro w rest hbehind _
      cases w with
      | nil => exact absurd (List.cons.inj hbehind).1 (by decide)
      | cons x w =>
        show (1 : Int) < 0 + (w.length + 1 : Nat) + 1
        omega)
  exact ⟨hw, by rw [hread]; rfl, ⟨run, tail, hsplit, hrun, by rw [hread]; rfl⟩, hempty,
    i, hi, hmoved⟩

end EffectScript
