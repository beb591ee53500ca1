import EffectScript.Proofs.Standing

/-!
# The walk tiles the tokens

A slicer that is asked for one declaration after the other goes over its tokens in jumps: over
hidden units, over quotes, over fragments, and over the tokens that it gives.  How far it jumps is
found out by five scans, each with a rule of its own for text that is out of order.

Here what it jumps over at an index is a *tile* (`Tile.ofIndex`).  No tile is empty and none reaches
beyond the last token (`Tile.ofIndex_spec`), so the tiles from the first index on lie side by side
and cover all of them, in any text, well marked or not.

The walk is one pass over the tiles (`Slicer.nextFrom_pass`, `Slicer.nextFrom_give`), and what its
steps give and record can be read off them (`Slicer.nextFrom_stepsOver`).

Main statement: `walk_tiles`.
-/

namespace EffectScript

/-! ## 1. How far the scans go -/

section Bounds

variable {tokens : List Token} {last i : Int}

/-- A scan that a token ended was ended inside its range. -/
theorem scan_bounds {α : Type} {look : α → Int → Token → Move α} (a : α) (i : Int)
    (h : (scan tokens last look a i).stopped = true) :
    i ≤ (scan tokens last look a i).index ∧ (scan tokens last look a i).index ≤ last := by
  fun_induction scan tokens last look a i with
  | case1 a i hle hhidden ih =>
    have := ih h
    omega
  | case2 a i hle hhidden b hlook => exact ⟨Int.le_refl i, hle⟩
  | case3 a i hle hhidden b hlook ih =>
    have := ih h
    omega
  | case4 a i hle hhidden b index hlook ih =>
    have := ih h
    omega
  | case5 a i hlt => cases h

theorem indexOf?_bounds {first j : Int} {ids : List TokenId}
    (h : indexOf? tokens first last ids = some j) : first ≤ j ∧ j ≤ last := by
  unfold indexOf? scanFor at h
  dsimp only at h
  split at h
  · rename_i hstopped
    have hbounds := scan_bounds _ _ hstopped
    cases h
    omega
  · cases h

theorem closingBrace?_bounds {stop : Int} (h : closingBrace? tokens last i = some stop) :
    i ≤ stop ∧ stop ≤ last := by
  unfold closingBrace? at h
  dsimp only at h
  split at h
  · rename_i hstopped
    cases h
    exact scan_bounds _ _ hstopped
  · cases h

theorem le_definitionEnd (tokens : List Token) (last i : Int) :
    i ≤ definitionEnd tokens last i := by
  fun_induction definitionEnd tokens last i with
  | case1 i hmore ih => omega
  | case2 i hend => exact Int.le_refl i

theorem le_expressionEnd (tokens : List Token) (last i : Int) :
    i ≤ expressionEnd tokens last i := by
  fun_induction expressionEnd tokens last i with
  | case1 i hle stop sign hjoint hdoubled ih =>
    have := lt_termEnd tokens last i
    omega
  | case2 i hle stop sign hjoint hsingle ih =>
    have := lt_termEnd tokens last i
    omega
  | case3 i hle stop sign hjoint =>
    have := lt_termEnd tokens last i
    omega
  | case4 i hlt => exact Int.le_refl i

theorem directiveEnd_bounds (id : TokenId) (h : i ≤ last) :
    i ≤ directiveEnd tokens last id i ∧ directiveEnd tokens last id i ≤ last := by
  have htext : i ≤ directiveEnd.textEnd tokens last i := by
    unfold directiveEnd.textEnd
    split
    · cases hfound : indexOf? tokens (i + 2) last [TokenId.quote] with
      | none => simp only [Option.getD_none]; omega
      | some j =>
        have := indexOf?_bounds hfound
        simp only [Option.getD_some]
        omega
    · omega
  have hexpression : i ≤ expressionEnd tokens last (i + 1) - 1 := by
    have := le_expressionEnd tokens last (i + 1)
    omega
  have hdefinition : i ≤ definitionEnd tokens last (i + 1) := by
    have := le_definitionEnd tokens last (i + 1)
    omega
  have hmin : ∀ stop, i ≤ stop → i ≤ min stop last ∧ min stop last ≤ last := by
    intro stop hstop
    omega
  unfold directiveEnd
  dsimp only
  split
  · exact hmin _ hdefinition
  · exact hmin _ hexpression
  · exact hmin _ hexpression
  · exact hmin _ (Int.le_refl i)
  · exact hmin _ (Int.le_refl i)
  · exact hmin _ htext
  · exact hmin _ htext
  · exact hmin (i + 1) (by omega)

theorem le_afterAttributes? {start : Int} (h : afterAttributes? tokens last i = some start) :
    i ≤ start := by
  fun_induction afterAttributes? tokens last i with
  | case1 i hbracket hfound => cases h
  | case2 i hbracket j hfound ih =>
    have := ih h
    omega
  | case3 i hbracket =>
    cases h
    exact Int.le_refl _

theorem function?_bounds {name : TokenId} {stop : Int}
    (h : function? tokens last i = some (name, stop)) : i ≤ stop ∧ stop ≤ last := by
  unfold function? at h
  split at h
  · cases h
  · split at h
    · cases h
    · rename_i start hstart
      split at h
      · split at h
        · cases h
        · rename_i brace hbrace
          split at h
          · obtain ⟨found, hfound, heq⟩ := Option.map_eq_some_iff.mp h
            cases heq
            have hclosing := closingBrace?_bounds hfound
            have hattributes := le_afterAttributes? hstart
            have hopening := indexOf?_bounds hbrace
            omega
          · cases h
      · cases h

/-- **A fragment starts where it is found and ends behind that, inside the frame.** -/
theorem Lead.fragment_bounds {f : Fragment} {storage : Option StorageClass} (hle : i ≤ last)
    (h : Lead.of tokens last i = .fragment f storage) :
    f.frame.first = i ∧ i ≤ f.frame.last ∧ f.frame.last ≤ last := by
  unfold Lead.of at h
  dsimp only at h
  split at h
  · cases h
  · split at h
    · cases h
      refine ⟨rfl, ?_⟩
      simp only [globalFragment, Frame.ofBounds]
      cases hfound : indexOf? tokens i last [TokenId.semicolon] with
      | none => exact ⟨hle, Int.le_refl last⟩
      | some j => exact indexOf?_bounds hfound
    · split at h
      · cases h
        exact ⟨rfl, directiveEnd_bounds _ hle⟩
      · split at h
        · rename_i name stop hfunction
          cases h
          exact ⟨rfl, function?_bounds hfunction⟩
        · cases h

end Bounds

/-! ## 2. Tiles -/

/-- The indices from `first` to the one before `stop`, in order. -/
def indicesBetween (first stop : Int) : List Int :=
  (List.range (stop - first).toNat).map fun n : Nat => first + n

/-- What a walk goes over at once. -/
inductive Tile where
  /-- The hidden unit of the given length. -/
  | hidden (index : Int) (length : Nat)
  | quote (index : Int)
  /-- A fragment, with the storage class if it is a global. -/
  | fragment (f : Fragment) (storage : Option StorageClass)
  /-- A token that is given. -/
  | token (index : Int) (id : TokenId)
  deriving DecidableEq, Repr

namespace Tile

/-- The index of the first token of a tile. -/
def first : Tile → Int
  | hidden i _ => i
  | quote i => i
  | fragment f _ => f.frame.first
  | token i _ => i

/-- The index behind a tile. -/
def stop : Tile → Int
  | hidden i n => i + n
  | quote i => i + 1
  | fragment f _ => f.frame.last + 1
  | token i _ => i + 1

/-- The fragment that is recorded at a tile. -/
def fragment? : Tile → Option Fragment
  | fragment f _ => some f
  | _ => none

/-- The token that is given at a tile, and its index. -/
def token? : Tile → Option (Int × TokenId)
  | token i id => some (i, id)
  | _ => none

/-- The storage class behind a tile, when it was `storage` in front of it. -/
def storageAfter (storage : StorageClass) : Tile → StorageClass
  | fragment _ (some c) => c
  | _ => storage

/-- The indices of a tile, in order. -/
def indices (t : Tile) : List Int := indicesBetween t.first t.stop

/-- What a tile is made of: a hidden unit, one visible quote, some tokens inside the text, or one
visible token. -/
def Fits (tokens : List Token) : Tile → Prop
  | hidden i n => 0 < n ∧ n = hiddenAt tokens i
  | quote i => hiddenAt tokens i = 0 ∧ tokenAt tokens i = .lit TokenId.quote
  | fragment f _ => 0 ≤ f.frame.first ∧ f.frame.first ≤ f.frame.last ∧ f.frame.last < tokens.length
  | token i id => hiddenAt tokens i = 0 ∧ tokenAt tokens i = .lit id

/-- The tile that starts at an index. -/
def ofIndex (tokens : List Token) (i : Int) : Tile :=
  if 0 < hiddenAt tokens i then hidden i (hiddenAt tokens i)
  else
    match Lead.of tokens (tokens.length - 1) i with
    | .quote => quote i
    | .fragment f storage => fragment f storage
    | .token id => token i id

end Tile

/-! ## 3. Tiles lie side by side -/

/-- A hidden unit ends with the text at the latest. -/
theorem regionLength_le (depth : Nat) (tokens : List Token) :
    regionLength depth tokens ≤ tokens.length := by
  fun_induction regionLength depth tokens <;>
    simp only [List.length_cons, List.length_nil] <;> omega

theorem hiddenAt_le {tokens : List Token} {i : Int} (h : 0 < hiddenAt tokens i) :
    i + hiddenAt tokens i ≤ tokens.length := by
  have hbounds := lt_length_of_hiddenAt_pos h
  have hlength : hiddenAt tokens i ≤ (tokens.drop i.toNat).length := by
    rw [hiddenAt, if_neg (by omega)]
    have hregion := regionLength_le 0
    fun_cases hiddenLength (tokens.drop i.toNat) <;> grind
  rw [List.length_drop] at hlength
  omega

section Tiles

variable {tokens : List Token} {i : Int}

/-- **No tile is empty, none reaches beyond the text**, and each is what it is said to be. -/
theorem Tile.ofIndex_spec (hi : 0 ≤ i) (hlt : i < tokens.length) :
    (ofIndex tokens i).first = i ∧ i < (ofIndex tokens i).stop ∧
      (ofIndex tokens i).stop ≤ tokens.length ∧ (ofIndex tokens i).Fits tokens := by
  unfold ofIndex
  split
  · rename_i hhidden
    have hle := hiddenAt_le hhidden
    simp only [first, stop, Fits]
    exact ⟨trivial, by omega, hle, hhidden, trivial⟩
  · rename_i hzero
    have hzero' : hiddenAt tokens i = 0 := by omega
    have hlit : tokenAt tokens i = .lit (tokenAt tokens i).id := by
      have hisLit := hiddenAt_eq_zero_iff.mp hzero'
      cases htoken : tokenAt tokens i with
      | lit id => rfl
      | _ => simp [htoken, Token.isLit] at hisLit
    split
    · rename_i hlead
      have hquote : tokenAt tokens i = .lit TokenId.quote := by
        unfold Lead.of at hlead
        grind
      simp only [first, stop, Fits]
      exact ⟨trivial, by omega, by omega, hzero', hquote⟩
    · rename_i f storage hlead
      obtain ⟨hfirst, hle, hlast⟩ := Lead.fragment_bounds (by omega) hlead
      simp only [first, stop, Fits]
      omega
    · rename_i id hlead
      have hid : (tokenAt tokens i).id = id := by
        unfold Lead.of at hlead
        grind
      simp only [first, stop, Fits]
      exact ⟨trivial, by omega, by omega, hzero', hid ▸ hlit⟩

end Tiles

/-- The tiles from an index to the end of the text. -/
def tilesFrom (tokens : List Token) (i : Int) : List Tile :=
  if i < tokens.length then
    Tile.ofIndex tokens i :: tilesFrom tokens (max (i + 1) (Tile.ofIndex tokens i).stop)
  else []
termination_by (tokens.length - i).toNat
decreasing_by omega

theorem tilesFrom_cons {tokens : List Token} {i : Int} (hi : 0 ≤ i) (hlt : i < tokens.length) :
    tilesFrom tokens i
      = Tile.ofIndex tokens i :: tilesFrom tokens (Tile.ofIndex tokens i).stop := by
  have hstop := (Tile.ofIndex_spec hi hlt).2.1
  rw [tilesFrom, if_pos hlt, show max (i + 1) (Tile.ofIndex tokens i).stop
    = (Tile.ofIndex tokens i).stop by omega]

theorem tilesFrom_end {tokens : List Token} {i : Int} (h : tokens.length ≤ i) :
    tilesFrom tokens i = [] := by
  rw [tilesFrom, if_neg (by omega)]

/-- An induction along the tiles: from the index behind a tile to the one in front of it. -/
theorem tiles_induction (tokens : List Token) {P : Int → Prop}
    (tile : ∀ i : Int, 0 ≤ i → i < tokens.length → P (Tile.ofIndex tokens i).stop → P i)
    (stop : ∀ i : Int, tokens.length ≤ i → P i) (i : Int) (hi : 0 ≤ i) : P i := by
  induction hn : (tokens.length - i).toNat using Nat.strongRecOn generalizing i with
  | ind n ih =>
    by_cases hlt : i < tokens.length
    · have hspec := Tile.ofIndex_spec hi hlt
      exact tile i hi hlt (ih _ (by omega) _ (by omega) rfl)
    · exact stop i (by omega)

theorem indicesBetween_append {a b c : Int} (hab : a ≤ b) (hbc : b ≤ c) :
    indicesBetween a b ++ indicesBetween b c = indicesBetween a c := by
  unfold indicesBetween
  rw [show (c - a).toNat = (b - a).toNat + (c - b).toNat by omega, List.range_add, List.map_append,
    List.map_map]
  refine congrArg _ (List.map_congr_left fun n _ => ?_)
  simp only [Function.comp_apply]
  omega

/-- **The tiles cover the indices one by one, in order.** -/
theorem flatMap_indices_tilesFrom (tokens : List Token) (i : Int) (hi : 0 ≤ i) :
    (tilesFrom tokens i).flatMap Tile.indices = indicesBetween i tokens.length := by
  refine tiles_induction tokens (P := fun i =>
    (tilesFrom tokens i).flatMap Tile.indices = indicesBetween i tokens.length) ?_ ?_ i hi
  · intro i hi hlt ih
    obtain ⟨hfirst, hlower, hupper, -⟩ := Tile.ofIndex_spec hi hlt
    rw [tilesFrom_cons hi hlt, List.flatMap_cons, ih, Tile.indices, hfirst,
      indicesBetween_append (by omega) hupper]
  · intro i hend
    rw [tilesFrom_end hend, indicesBetween, show ((tokens.length : Int) - i).toNat = 0 by omega]
    rfl

theorem le_first_of_mem_tilesFrom {tokens : List Token} {i : Int} (hi : 0 ≤ i) {t : Tile}
    (ht : t ∈ tilesFrom tokens i) : i ≤ t.first ∧ t.Fits tokens := by
  refine tiles_induction tokens (P := fun i => t ∈ tilesFrom tokens i → i ≤ t.first ∧ t.Fits tokens)
    ?_ ?_ i hi ht
  · intro i hi hlt ih ht
    obtain ⟨hfirst, hlower, -, hfits⟩ := Tile.ofIndex_spec hi hlt
    rw [tilesFrom_cons hi hlt, List.mem_cons] at ht
    rcases ht with rfl | ht
    · exact ⟨by omega, hfits⟩
    · have := ih ht
      exact ⟨by omega, this.2⟩
  · intro i hend ht
    rw [tilesFrom_end hend] at ht
    cases ht

theorem pairwise_tilesFrom (tokens : List Token) (i : Int) (hi : 0 ≤ i) :
    (tilesFrom tokens i).Pairwise fun t u => t.stop ≤ u.first := by
  refine tiles_induction tokens (P := fun i => (tilesFrom tokens i).Pairwise
    fun t u => t.stop ≤ u.first) ?_ ?_ i hi
  · intro i hi hlt ih
    have hlower := (Tile.ofIndex_spec hi hlt).2.1
    rw [tilesFrom_cons hi hlt, List.pairwise_cons]
    exact ⟨fun u hu => (le_first_of_mem_tilesFrom (by omega) hu).1, ih⟩
  · intro i hend
    rw [tilesFrom_end hend]
    exact .nil

/-! ## 4. The walk goes from tile to tile -/

namespace Slicer

/-- The frame of the slicer goes to the end of its tokens, and the cursor is not in front of
them. -/
def Spans (s : Slicer) : Prop := s.frame.last = s.tokens.length - 1 ∧ 0 ≤ s.frame.cursor

/-- The slicer behind a tile. -/
def pass (s : Slicer) (t : Tile) : Slicer :=
  { s with
    fragments := s.fragments ++ t.fragment?.toList
    frame := { s.frame with cursor := t.stop } }

/-- The slicer after it gave a token. -/
def give (s : Slicer) (i : Int) (id : TokenId) : Slicer := { s with token := id, tokenIndex := i }

theorem ofTokens_spans (tokens : List Token) (table : SpellingTable) :
    (ofTokens tokens table).Spans :=
  ⟨rfl, Int.le_refl 0⟩

variable {s : Slicer}

theorem nextFrom_end (hs : s.Spans) (storage : StorageClass)
    (h : s.tokens.length ≤ s.frame.cursor) :
    nextFrom storage s = (⟨TokenId.eol, storage, false⟩, s) := by
  obtain ⟨hlast, hcursor⟩ := hs
  rw [nextFrom]
  dsimp only
  rw [if_neg (by omega), dif_pos (by omega)]

/-- A step over a tile that is not given. -/
theorem nextFrom_pass (hs : s.Spans) (storage : StorageClass) (h : s.frame.cursor < s.tokens.length)
    (htile : (Tile.ofIndex s.tokens s.frame.cursor).token? = none) :
    nextFrom storage s = nextFrom ((Tile.ofIndex s.tokens s.frame.cursor).storageAfter storage)
      (s.pass (Tile.ofIndex s.tokens s.frame.cursor)) := by
  obtain ⟨hlast, hcursor⟩ := hs
  have hspec := Tile.ofIndex_spec hcursor h
  unfold Tile.ofIndex at htile hspec ⊢
  rw [nextFrom]
  dsimp only
  rw [if_neg (by omega), dif_neg (by omega)]
  by_cases hhidden : 0 < hiddenAt s.tokens s.frame.cursor
  · rw [if_pos hhidden, if_pos hhidden]
    simp [Tile.storageAfter, pass, moveTo, Tile.fragment?, Tile.stop]
  · rw [if_neg hhidden] at htile hspec ⊢
    rw [if_neg hhidden, ← hlast]
    rw [← hlast] at htile hspec
    cases hlead : Lead.of s.tokens s.frame.last s.frame.cursor with
    | quote => simp [Tile.storageAfter, pass, moveTo, Tile.fragment?, Tile.stop]
    | fragment f storage? =>
      rw [hlead] at hspec
      obtain ⟨hfirst, hlower, hupper, -⟩ := hspec
      simp only [Tile.first, Tile.stop] at hfirst hlower hupper
      have hafter : indexAfter s.tokens.length (max s.frame.cursor f.frame.last)
          = f.frame.last + 1 := by
        rw [show max s.frame.cursor f.frame.last = f.frame.last by omega,
          indexAfter_of_lt (by omega)]
      dsimp only
      rw [hafter]
      cases storage? <;> simp [Tile.storageAfter, pass, Tile.fragment?, Tile.stop]
    | token id =>
      rw [hlead] at htile
      cases htile

/-- A step that ends at a tile that is given. -/
theorem nextFrom_give (hs : s.Spans) (storage : StorageClass) (h : s.frame.cursor < s.tokens.length)
    {i : Int} {id : TokenId}
    (htile : (Tile.ofIndex s.tokens s.frame.cursor).token? = some (i, id)) :
    nextFrom storage s = (⟨id, storage, true⟩, (s.pass (.token i id)).give i id) := by
  obtain ⟨hlast, hcursor⟩ := hs
  unfold Tile.ofIndex at htile
  by_cases hhidden : 0 < hiddenAt s.tokens s.frame.cursor
  · rw [if_pos hhidden] at htile
    cases htile
  · rw [if_neg hhidden, ← hlast] at htile
    cases hlead : Lead.of s.tokens s.frame.last s.frame.cursor with
    | quote =>
      rw [hlead] at htile
      cases htile
    | fragment f storage? =>
      rw [hlead] at htile
      cases htile
    | token id =>
      rw [hlead] at htile
      cases htile
      rw [nextFrom]
      dsimp only
      rw [if_neg (by omega), dif_neg (by omega), if_neg hhidden, hlead]
      simp [pass, give, Tile.fragment?, Tile.stop]

/-! ## 5. What the steps give and record -/

/-- What the steps of a walk give that goes over some tiles, with the storage class `storage` to
start with. -/
def stepsOver (storage : StorageClass) : List Tile → List Next
  | [] => [⟨TokenId.eol, storage, false⟩]
  | .token _ id :: rest => ⟨id, storage, true⟩ :: stepsOver .default rest
  | t :: rest => stepsOver (t.storageAfter storage) rest

/-- The tiles that are still in front of a slicer. -/
def tilesAhead (s : Slicer) : List Tile := tilesFrom s.tokens s.frame.cursor

/-- What a step says and does, read off the tiles ahead.  The tokens and their spellings stay, and
what is recorded together with what is still to be recorded does too. -/
structure StepsOver (storage : StorageClass) (s : Slicer) (step : Next) (after : Slicer) :
    Prop where
  spans : after.Spans
  tokens_eq : after.tokens = s.tokens
  table_eq : after.table = s.table
  fragments_eq : after.fragments ++ after.tilesAhead.filterMap Tile.fragment?
    = s.fragments ++ s.tilesAhead.filterMap Tile.fragment?
  found : step.found = true →
    stepsOver storage s.tilesAhead = step :: stepsOver .default after.tilesAhead ∧
    s.tilesAhead.filterMap Tile.token?
      = (after.tokenIndex, step.id) :: after.tilesAhead.filterMap Tile.token?
  ended : step.found = false → stepsOver storage s.tilesAhead = [step] ∧ after.tilesAhead = [] ∧
    s.tilesAhead.filterMap Tile.token? = []

theorem stepsOver_pass {t : Tile} (h : t.token? = none) (storage : StorageClass)
    (rest : List Tile) :
    stepsOver storage (t :: rest) = stepsOver (t.storageAfter storage) rest := by
  cases t with
  | token i id => cases h
  | _ => rfl

/-- What holds of a step behind a tile that is not given holds of the step in front of it. -/
theorem StepsOver.of_pass {storage : StorageClass} {step : Next} {after : Slicer} {t : Tile}
    (htile : t.token? = none) (hahead : s.tilesAhead = t :: (s.pass t).tilesAhead)
    (h : StepsOver (t.storageAfter storage) (s.pass t) step after) :
    StepsOver storage s step after := by
  obtain ⟨hspans, htokens, htable, hfragments, hfound, hended⟩ := h
  have hsteps : stepsOver storage s.tilesAhead
      = stepsOver (t.storageAfter storage) (s.pass t).tilesAhead := by
    rw [hahead, stepsOver_pass htile]
  have hgiven : s.tilesAhead.filterMap Tile.token?
      = (s.pass t).tilesAhead.filterMap Tile.token? := by
    rw [hahead, List.filterMap_cons_none htile]
  refine ⟨hspans, htokens, htable, ?_, ?_, ?_⟩
  · rw [hfragments, hahead, pass]
    cases hfragment : t.fragment? with
    | none => rw [List.filterMap_cons_none hfragment, Option.toList_none, List.append_nil]
    | some f =>
      rw [List.filterMap_cons_some hfragment, Option.toList_some, List.append_assoc,
        List.singleton_append]
  · rw [hsteps, hgiven]
    exact hfound
  · rw [hsteps, hgiven]
    exact hended

/-- **A step goes over the tiles ahead up to the first that is given.** -/
theorem nextFrom_stepsOver (hs : s.Spans) (storage : StorageClass) :
    StepsOver storage s (nextFrom storage s).1 (nextFrom storage s).2 := by
  induction hn : (s.tokens.length - s.frame.cursor).toNat using Nat.strongRecOn generalizing s
    storage with
  | ind n ih =>
    by_cases hlt : s.frame.cursor < s.tokens.length
    · obtain ⟨hfirst, hlower, -, -⟩ := Tile.ofIndex_spec hs.2 hlt
      have hahead : s.tilesAhead = Tile.ofIndex s.tokens s.frame.cursor ::
          (s.pass (Tile.ofIndex s.tokens s.frame.cursor)).tilesAhead := tilesFrom_cons hs.2 hlt
      have hspans : (s.pass (Tile.ofIndex s.tokens s.frame.cursor)).Spans :=
        ⟨hs.1, Int.le_of_lt (Int.lt_of_le_of_lt hs.2 hlower)⟩
      cases htile : (Tile.ofIndex s.tokens s.frame.cursor).token? with
      | none =>
        rw [nextFrom_pass hs storage hlt htile]
        refine .of_pass htile hahead (ih _ ?_ hspans _ rfl)
        simp only [pass]
        omega
      | some given =>
        obtain ⟨i, id⟩ := given
        obtain heq : Tile.ofIndex s.tokens s.frame.cursor = .token i id := by
          cases hof : Tile.ofIndex s.tokens s.frame.cursor with
          | token i' id' =>
            rw [hof] at htile
            cases htile
            rfl
          | _ =>
            rw [hof] at htile
            cases htile
        rw [heq] at hahead hspans
        rw [nextFrom_give hs storage hlt htile]
        refine ⟨hspans, rfl, rfl, ?_, fun _ => ⟨?_, ?_⟩, fun h => ?_⟩
        · rw [hahead, List.filterMap_cons_none rfl]
          simp only [pass, give, Tile.fragment?, Option.toList_none, List.append_nil]
          rfl
        · rw [hahead]
          rfl
        · rw [hahead]
          rfl
        · cases h
    · rw [nextFrom_end hs storage (by omega)]
      have hnil : s.tilesAhead = [] := tilesFrom_end (by omega)
      refine ⟨hs, rfl, rfl, rfl, fun h => ?_, fun _ => ?_⟩
      · cases h
      · rw [hnil]
        exact ⟨rfl, rfl, rfl⟩

/-- A step finds something just when a tile ahead is to be given. -/
theorem StepsOver.found_eq {storage : StorageClass} {step : Next} {after : Slicer}
    (h : StepsOver storage s step after) :
    step.found = !(s.tilesAhead.filterMap Tile.token?).isEmpty := by
  cases hfound : step.found with
  | true =>
    rw [(h.found hfound).2]
    rfl
  | false =>
    rw [(h.ended hfound).2.2]
    rfl

/-- The slicer after `n` steps to the next declaration. -/
def afterSteps (s : Slicer) : Nat → Slicer
  | 0 => s
  | n + 1 => s.next.2.afterSteps n

theorem drain_eq (s : Slicer) :
    s.drain = if s.next.1.found then (s.next.1 :: s.next.2.drain.1, s.next.2.drain.2)
      else ([s.next.1], s.next.2) := by
  conv => lhs; rw [drain]
  split
  rename_i step after hnext
  rw [hnext]
  split <;> rfl

/-- All steps, with the tokens of the tiles ahead one after the other. -/
theorem drain_given (hs : s.Spans) {given : List (Int × TokenId)}
    (hgiven : s.tilesAhead.filterMap Tile.token? = given) :
    s.drain = ((List.range (given.length + 1)).map fun n => (s.afterSteps n).next.1,
        s.afterSteps (given.length + 1)) ∧
      (∀ n i id, given[n]? = some (i, id) → (s.afterSteps n).next.1.found = true ∧
        (s.afterSteps n).next.1.id = id ∧ (s.afterSteps (n + 1)).tokenIndex = i) ∧
      (s.afterSteps given.length).next.1.found = false := by
  have hstep : StepsOver .default s s.next.1 s.next.2 := nextFrom_stepsOver hs .default
  induction given generalizing s with
  | nil =>
    have hended : s.next.1.found = false := by rw [hstep.found_eq, hgiven]; rfl
    rw [drain_eq, hended]
    refine ⟨rfl, ?_, hended⟩
    intro n i id h
    cases h
  | cons first given ih =>
    have hfound : s.next.1.found = true := by rw [hstep.found_eq, hgiven]; rfl
    rw [(hstep.found hfound).2] at hgiven
    cases hgiven
    obtain ⟨hdrain, hgives, hlast⟩ := ih hstep.spans rfl (nextFrom_stepsOver hstep.spans .default)
    refine ⟨?_, ?_, hlast⟩
    · rw [drain_eq, if_pos hfound, hdrain, List.length_cons, List.range_succ_eq_map (n := _ + 1),
        List.map_cons, List.map_map]
      rfl
    · intro n i id h
      cases n with
      | zero =>
        cases h
        exact ⟨hfound, rfl, rfl⟩
      | succ n => exact hgives n i id h

/-- What all steps give and record, read off the tiles ahead. -/
theorem drain_stepsOver (hs : s.Spans) :
    s.drain.1 = stepsOver .default s.tilesAhead ∧
      s.drain.2.fragments = s.fragments ++ s.tilesAhead.filterMap Tile.fragment? ∧
      s.drain.2.tokens = s.tokens ∧ s.drain.2.table = s.table := by
  have hstep : StepsOver .default s s.next.1 s.next.2 := nextFrom_stepsOver hs .default
  induction hgiven : s.tilesAhead.filterMap Tile.token? generalizing s with
  | nil =>
    have hended : s.next.1.found = false := by rw [hstep.found_eq, hgiven]; rfl
    obtain ⟨hsteps, hnil, -⟩ := hstep.ended hended
    have hfragments := hstep.fragments_eq
    rw [hnil, List.filterMap_nil, List.append_nil] at hfragments
    rw [drain_eq, hended]
    exact ⟨hsteps.symm, hfragments, hstep.tokens_eq, hstep.table_eq⟩
  | cons first given ih =>
    have hfound : s.next.1.found = true := by rw [hstep.found_eq, hgiven]; rfl
    obtain ⟨hsteps, hgiven'⟩ := hstep.found hfound
    rw [hgiven', List.cons.injEq] at hgiven
    obtain ⟨hgives, hfragments, htokens, htable⟩ :=
      ih hstep.spans (nextFrom_stepsOver hstep.spans .default) hgiven.2
    rw [drain_eq, if_pos hfound, hsteps, hgives]
    exact ⟨rfl, hfragments.trans hstep.fragments_eq, htokens.trans hstep.tokens_eq,
      htable.trans hstep.table_eq⟩

end Slicer

/-! ## 6. The whole walk -/

/-- **The walk tiles the tokens.**  Of any tokens at all, a fresh slicer gives one after the other
until a step finds nothing, and there is a list of tiles that cover all indices one by one, in
order: hidden units, single quotes, the fragments that were recorded, and the tokens that were
given, each where the slicer says that it stood.  So every fragment holds at least one token, all
are inside the text, and each ends in front of the next. -/
theorem walk_tiles (tokens : List Token) (table : SpellingTable) :
    let s := Slicer.ofTokens tokens table
    ∃ tiles : List Tile,
      tiles.flatMap Tile.indices = indicesBetween 0 tokens.length ∧
      (∀ t ∈ tiles, t.Fits tokens) ∧
      (∀ n i id, (tiles.filterMap Tile.token?)[n]? = some (i, id) →
        (s.afterSteps n).next.1.found = true ∧ (s.afterSteps n).next.1.id = id ∧
          (s.afterSteps (n + 1)).tokenIndex = i) ∧
      (s.afterSteps (tiles.filterMap Tile.token?).length).next.1.found = false ∧
      s.drain = ((List.range ((tiles.filterMap Tile.token?).length + 1)).map
          fun n => (s.afterSteps n).next.1,
        s.afterSteps ((tiles.filterMap Tile.token?).length + 1)) ∧
      s.drain.2.fragments = tiles.filterMap Tile.fragment? ∧
      (∀ f ∈ s.drain.2.fragments, 0 ≤ f.frame.first ∧ f.frame.first ≤ f.frame.last ∧
        f.frame.last < tokens.length) ∧
      s.drain.2.fragments.Pairwise fun f g => f.frame.last < g.frame.first := by
  intro s
  have hspans := Slicer.ofTokens_spans tokens table
  obtain ⟨hdrain, hgives, hended⟩ := Slicer.drain_given hspans rfl
  have hfragments : s.drain.2.fragments = (tilesFrom tokens 0).filterMap Tile.fragment? :=
    (Slicer.drain_stepsOver hspans).2.1
  have hfits : ∀ t ∈ tilesFrom tokens 0, t.Fits tokens := fun t ht =>
    (le_first_of_mem_tilesFrom (Int.le_refl 0) ht).2
  refine ⟨tilesFrom tokens 0, flatMap_indices_tilesFrom tokens 0 (Int.le_refl 0), hfits,
    hgives, hended, hdrain, hfragments, ?_, ?_⟩
  · intro f hf
    rw [hfragments, List.mem_filterMap] at hf
    obtain ⟨t, ht, htf⟩ := hf
    cases t with
    | fragment g storage =>
      cases htf
      exact hfits _ ht
    | _ => cases htf
  · rw [hfragments, List.pairwise_filterMap]
    refine (pairwise_tilesFrom tokens 0 (Int.le_refl 0)).imp ?_
    intro t u htu f hf g hg
    cases t with
    | fragment _ _ =>
      cases u with
      | fragment _ _ =>
        cases hf
        cases hg
        simp only [Tile.stop, Tile.first] at htu
        omega
      | _ => cases hg
    | _ => cases hf

end EffectScript
