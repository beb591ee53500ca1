import Mathlib
import EffectScript.Proofs.Assignments

/-!
# Pieces and the frame they are read in

Whatever is asked of a slicer inside a frame, the frames that it gives, stores and records are empty
or inside that frame, but for three slips (`Slip`).  A reader that starts at the token behind the
frame takes it for a piece; the name of a state assignment is taken there even where the text has
ended; and a piece that ends with the frame goes on to the end of a hidden unit that the frame's end
cuts.

One relation says what a request may do (`Slicer.Confines`).  It holds of each request, it composes,
and so it holds of any number of requests.

Main statements: `requests_confined`, and `requests_slip` with an example of each slip.
-/

namespace EffectScript

/-! ## 1. Slips -/

/-- A piece is empty or inside the frame. -/
def Frame.Holds (f p : Frame) : Prop := p.isEmpty = true ∨ f.first ≤ p.first ∧ p.last ≤ f.last

/-- How a piece can slip out of its frame. -/
inductive Slip where
  /-- It is one token behind the frame. -/
  | behind
  /-- It is one index behind the frame, and maybe behind the text. -/
  | beyond
  /-- It starts inside the frame and ends behind it, with a hidden unit that starts inside. -/
  | torn
  deriving DecidableEq, Repr

def Slip.Of (tokens : List Token) (f p : Frame) : Slip → Prop
  | behind => p.last = p.first ∧ f.last < p.first ∧ 0 ≤ p.first ∧ p.first < tokens.length
  | beyond => p.last = p.first ∧ f.last < p.first
  | torn => f.first ≤ p.first ∧ f.last < p.last ∧
      ∃ i, p.first ≤ i ∧ i ≤ f.last ∧ i + hiddenAt tokens i = p.last + 1

/-- The frame holds a piece, or this has slipped in one of some ways. -/
def Frame.Keeps (f : Frame) (tokens : List Token) (slips : List Slip) (p : Frame) : Prop :=
  f.Holds p ∨ ∃ slip ∈ slips, slip.Of tokens f p

/-- A piece is empty or inside the text. -/
def Frame.InText (p : Frame) (tokens : List Token) : Prop :=
  p.isEmpty = true ∨ 0 ≤ p.first ∧ p.last < tokens.length

/-- The slips of the pieces of a declaration. -/
structure Pieces.Slips where
  name : List Slip
  assign : List Slip
  value : List Slip
  data : List Slip
  annotations : List Slip

structure Pieces.Kept (f : Frame) (tokens : List Token) (slips : Pieces.Slips) (p : Pieces) :
    Prop where
  name : f.Keeps tokens slips.name p.name
  assign : f.Keeps tokens slips.assign p.assign
  value : f.Keeps tokens slips.value p.value
  data : f.Keeps tokens slips.data p.data
  annotations : f.Keeps tokens slips.annotations p.annotations

namespace Frame

variable {f p : Frame} {tokens : List Token} {slips : List Slip}

theorem keeps_empty (f : Frame) (tokens : List Token) (slips : List Slip) :
    f.Keeps tokens slips .empty :=
  .inl (.inl rfl)

/-- Only the ends of the frame count. -/
theorem Keeps.of_bounds {g : Frame} (h : g.Keeps tokens slips p) (hfirst : g.first = f.first)
    (hlast : g.last = f.last) : f.Keeps tokens slips p := by
  obtain hholds | ⟨slip, hslip, hof⟩ := h
  · unfold Holds at hholds
    rw [hfirst, hlast] at hholds
    exact .inl hholds
  · refine .inr ⟨slip, hslip, ?_⟩
    cases slip <;> simpa only [Slip.Of, hfirst, hlast] using hof

theorem holds_nothing {v e : Int} (h : e ≤ v) : f.Holds (.ofBounds v (e - 1)) :=
  .inl (decide_eq_true (show e - 1 < v by omega))

theorem Keeps.holds (h : f.Keeps tokens [] p) : f.Holds p := by
  obtain hholds | ⟨slip, hslip, -⟩ := h
  · exact hholds
  · cases hslip

/-- A piece that starts inside the frame, and the end of the scan for it. -/
theorem keeps_torn {v e : Int} (hv : f.first ≤ v)
    (he : e ≤ f.last + 1 ∨ ∃ j, v ≤ j ∧ j ≤ f.last ∧ j + hiddenAt tokens j = e)
    (hslips : .torn ∈ slips) : f.Keeps tokens slips (.ofBounds v (e - 1)) := by
  by_cases hle : e ≤ f.last + 1
  · exact .inl (.inr ⟨hv, show e - 1 ≤ f.last by omega⟩)
  · obtain hle' | ⟨j, hj, hlast, heq⟩ := he
    · exact absurd hle' hle
    · exact .inr ⟨.torn, hslips, hv, show f.last < e - 1 by omega, j, hj, hlast,
        show _ = e - 1 + 1 by omega⟩

/-- A piece of one token, inside the frame or behind it. -/
theorem keeps_one {v : Int} (hv : f.first ≤ v ∨ f.last < v) (hnonneg : 0 ≤ v)
    (hlt : v < tokens.length)
    (hslips : .behind ∈ slips) : f.Keeps tokens slips (.ofBounds v v) := by
  by_cases hle : v ≤ f.last
  · exact .inl (.inr ⟨show f.first ≤ v by omega, hle⟩)
  · exact .inr ⟨.behind, hslips, rfl, show f.last < v by omega, hnonneg, hlt⟩

/-- Only a piece that is beyond the text is not in it. -/
theorem Keeps.inText (h : f.Keeps tokens slips p) (hfirst : 0 ≤ f.first)
    (hlast : f.last < tokens.length) (hslips : .beyond ∉ slips) : p.InText tokens := by
  obtain (hempty | hinside) | ⟨_ | _ | _, hslip, hof⟩ := h
  · exact .inl hempty
  · exact .inr (by omega)
  · obtain ⟨heq, -, hnonneg, hlt⟩ := hof
    exact .inr (by omega)
  · exact absurd hslip hslips
  · obtain ⟨hinside, hout, i, hi, hle, heq⟩ := hof
    have hpos : 0 < hiddenAt tokens i := by omega
    have hend := hiddenAt_le hpos
    exact .inr (by omega)

/-- In a frame that reaches to the end of the text, pieces only slip beyond it. -/
theorem Keeps.of_end (h : f.Keeps tokens slips p) (hend : f.last + 1 = tokens.length) :
    f.Holds p ∨ .beyond ∈ slips ∧ Slip.beyond.Of tokens f p := by
  obtain hholds | ⟨_ | _ | _, hslip, hof⟩ := h
  · exact .inl hholds
  · obtain ⟨-, hlast, -, hlt⟩ := hof
    omega
  · exact .inr ⟨hslip, hof⟩
  · obtain ⟨-, hlast, i, hi, hle, heq⟩ := hof
    have hpos : 0 < hiddenAt tokens i := by omega
    have hunit := hiddenAt_le hpos
    omega

end Frame

/-! ## 2. Where a scan ends -/

section Scans

variable {tokens : List Token} {last i : Int}

variable (tokens last) in
/-- What ends at the index `e` when it starts at `i` and goes on up to `last`: it ends behind `last`
at most by one, or else with a hidden unit. -/
structure ScanEnds (i e : Int) : Prop where
  le : i ≤ e
  eq_of_lt : last < i → e = i
  of_le : i ≤ last → e ≤ last + 1 ∨ ∃ j, i ≤ j ∧ j ≤ last ∧ j + hiddenAt tokens j = e

/-- One more step in front: to an index that is behind `last` at most by one, or over a hidden
unit. -/
theorem ScanEnds.prepend {e k : Int} (h : ScanEnds tokens last k e) (hi : i ≤ k) (hle : i ≤ last)
    (hk : k ≤ last + 1 ∨ k = i + hiddenAt tokens i) : ScanEnds tokens last i e := by
  have hend := h.le
  refine ⟨by omega, fun hlt => by omega, fun _ => ?_⟩
  by_cases hinside : k ≤ last
  · obtain hend | ⟨j, hj, hlast, heq⟩ := h.of_le hinside
    · exact .inl hend
    · exact .inr ⟨j, by omega, hlast, heq⟩
  · have heq := h.eq_of_lt (by omega)
    rcases hk with hnext | hhidden
    · exact .inl (by omega)
    · exact .inr ⟨i, Int.le_refl i, hle, by omega⟩

/-- A scan that jumps to the end of its range at most. -/
theorem scan_ends {α : Type} {look : α → Int → Token → Move α}
    (hjump : ∀ a i t b k, look a i t = .jump b k → k ≤ last) (a : α) (i : Int) :
    ScanEnds tokens last i (scan tokens last look a i).index := by
  fun_induction scan tokens last look a i with
  | case1 a i hle hhidden ih => exact ih.prepend (by omega) hle (.inr rfl)
  | case2 a i hle hhidden b hlook =>
    exact ⟨Int.le_refl i, fun _ => rfl, fun _ => .inl (show i ≤ last + 1 by omega)⟩
  | case3 a i hle hhidden b hlook ih => exact ih.prepend (by omega) hle (.inl (by omega))
  | case4 a i hle hhidden b index hlook ih =>
    have hindex := hjump _ _ _ _ _ hlook
    exact ih.prepend (by omega) hle (.inl (by omega))
  | case5 a i hlt => exact ⟨Int.le_refl i, fun _ => rfl, fun hle => absurd hle hlt⟩

theorem closingQuote_le (tokens : List Token) (last i : Int) :
    closingQuote tokens last i ≤ last := by
  unfold closingQuote
  dsimp only
  split
  · rename_i hstopped
    exact (scan_bounds _ _ hstopped).2
  · exact Int.le_refl last

/-- An initializer in front of the end of the frame ends where a scan does, and one behind it after
a token. -/
theorem initializerEnd_ends (tokens : List Token) (last v : Int) :
    (v ≤ last → ScanEnds tokens last v (Slicer.initializerEnd tokens last v)) ∧
      (last < v → v ≤ Slicer.initializerEnd tokens last v ∧
        Slicer.initializerEnd tokens last v ≤ v + 1) := by
  -- A list in braces and an expression in parentheses go on to the last token but one.
  have hgroup : ∀ e, ScanEnds tokens (last - 1) (v + 1) e →
      (v ≤ last → ScanEnds tokens last v e) ∧ (last < v → v ≤ e ∧ e ≤ v + 1) := by
    intro e he
    have hle := he.le
    refine ⟨fun hv => ⟨by omega, fun hlt => by omega, fun _ => ?_⟩, fun hlt => ?_⟩
    · by_cases hinside : v + 1 ≤ last - 1
      · obtain hend | ⟨j, hj, hlast, heq⟩ := he.of_le hinside
        · exact .inl (by omega)
        · exact .inr ⟨j, by omega, by omega, heq⟩
      · have heq := he.eq_of_lt (by omega)
        exact .inl (by omega)
    · have heq := he.eq_of_lt (by omega)
      omega
  have hrun : ∀ e, ScanEnds tokens last v e →
      (v ≤ last → ScanEnds tokens last v e) ∧ (last < v → v ≤ e ∧ e ≤ v + 1) := by
    intro e he
    refine ⟨fun _ => he, fun hlt => ?_⟩
    have heq := he.eq_of_lt hlt
    omega
  unfold Slicer.initializerEnd
  dsimp only
  split
  · exact hgroup _ (scan_ends (by intro a i t b k hlook; split at hlook <;> cases hlook) _ _)
  · split
    · refine hgroup _ (scan_ends ?_ _ _)
      intro a i t b k hlook
      split at hlook
      · cases hlook
      · split at hlook
        · cases hlook
        · split at hlook <;> cases hlook
    · refine hrun _ (scan_ends ?_ _ _)
      intro a i t b k hlook
      split at hlook
      · cases hlook
        exact closingQuote_le tokens last i
      · split at hlook <;> cases hlook

end Scans

/-! ## 3. Readers -/

namespace Slicer

/-- The frame of a slicer is inside the text, and its cursor is not in front of it. -/
structure Bounded (s : Slicer) : Prop where
  nonneg : 0 ≤ s.frame.first
  last_lt : s.frame.last < s.tokens.length
  ahead : s.frame.first ≤ s.frame.cursor ∨ s.frame.last < s.frame.cursor

/-- The slips of the pieces of an object. -/
def objectSlips : Pieces.Slips := ⟨[.behind], [.behind], [.behind, .torn], [], []⟩

/-- The slips of the pieces of a state assignment. -/
def stateSlips : Pieces.Slips := ⟨[.beyond], [], [], [.torn], []⟩

/-- What is done inside a frame: the tokens and the frame stay, the cursor does not go in front of
the frame, and what is recorded and stored is kept by the frame. -/
structure Confines (s t : Slicer) : Prop where
  tokens_eq : t.tokens = s.tokens
  first_eq : t.frame.first = s.frame.first
  last_eq : t.frame.last = s.frame.last
  ahead : s.frame.first ≤ t.frame.cursor ∨ s.frame.last < t.frame.cursor
  fragments : ∃ new, t.fragments = s.fragments ++ new ∧ ∀ x ∈ new, s.frame.Holds x.frame
  pieces : t.pieces = s.pieces ∨ t.pieces.Kept s.frame s.tokens objectSlips ∨
    t.pieces.Kept s.frame s.tokens stateSlips

section Readers

variable {s t u : Slicer} {p : Frame} {slips : List Slip} {i : Int}

namespace Confines

theorem bounded (hs : s.Bounded) (h : s.Confines t) : t.Bounded := by
  refine ⟨?_, ?_, ?_⟩
  · rw [h.first_eq]
    exact hs.nonneg
  · rw [h.last_eq, h.tokens_eq]
    exact hs.last_lt
  · rw [h.first_eq, h.last_eq]
    exact h.ahead

theorem refl (hs : s.Bounded) : s.Confines s :=
  ⟨rfl, rfl, rfl, hs.ahead, ⟨[], (List.append_nil _).symm, by simp⟩, .inl rfl⟩

/-- What the frame of the later slicer keeps, that of the earlier one does. -/
theorem keeps (h : s.Confines t) (hp : t.frame.Keeps t.tokens slips p) :
    s.frame.Keeps s.tokens slips p := by
  rw [h.tokens_eq] at hp
  exact hp.of_bounds h.first_eq h.last_eq

theorem trans (h : s.Confines t) (h' : t.Confines u) : s.Confines u := by
  obtain ⟨new, hnew, hheld⟩ := h.fragments
  obtain ⟨new', hnew', hheld'⟩ := h'.fragments
  refine ⟨h'.tokens_eq.trans h.tokens_eq, h'.first_eq.trans h.first_eq,
    h'.last_eq.trans h.last_eq, ?_, ⟨new ++ new', by rw [hnew', hnew, List.append_assoc], ?_⟩, ?_⟩
  · rw [← h.first_eq, ← h.last_eq]
    exact h'.ahead
  · intro x hx
    rcases List.mem_append.mp hx with hx | hx
    · exact hheld x hx
    · have hx' := hheld' x hx
      unfold Frame.Holds at hx' ⊢
      rwa [h.first_eq, h.last_eq] at hx'
  · have hkept : ∀ slips, u.pieces.Kept t.frame t.tokens slips →
        u.pieces.Kept s.frame s.tokens slips :=
      fun _ hk =>
        ⟨h.keeps hk.name, h.keeps hk.assign, h.keeps hk.value, h.keeps hk.data,
          h.keeps hk.annotations⟩
    rcases h'.pieces with heq | hobject | hstate
    · rw [heq]
      exact h.pieces
    · exact .inr (.inl (hkept _ hobject))
    · exact .inr (.inr (hkept _ hstate))

theorem moveTo (h : s.Confines t) (hi : s.frame.first ≤ i ∨ s.frame.last < i) :
    s.Confines (t.moveTo i) :=
  ⟨h.tokens_eq, h.first_eq, h.last_eq, hi, h.fragments, h.pieces⟩

theorem report (h : s.Confines t) (line : Bytes) : s.Confines (t.report line) :=
  ⟨h.tokens_eq, h.first_eq, h.last_eq, h.ahead, h.fragments, h.pieces⟩

theorem passSemicolon (h : s.Confines t) (hi : s.frame.first ≤ i ∨ s.frame.last < i) :
    s.Confines (t.passSemicolon i) := by
  have hle := le_visibleFrom t.tokens i
  unfold Slicer.passSemicolon
  dsimp only
  split
  · exact h.moveTo (by omega)
  · exact h.moveTo (by omega)

theorem skipHidden (h : s.Confines t) : s.Confines t.skipHidden := by
  have hle := le_visibleFrom t.tokens t.frame.cursor
  have hahead := h.ahead
  exact h.moveTo (by omega)

theorem nextVisible (h : s.Confines t) :
    s.Confines (t.moveTo (visibleFrom t.tokens (t.frame.cursor + 1))) := by
  have hle := le_visibleFrom t.tokens (t.frame.cursor + 1)
  have hahead := h.ahead
  exact h.moveTo (by omega)

theorem passHere (h : s.Confines t) : s.Confines t.passHere := by
  have hahead := h.ahead
  unfold Slicer.passHere
  split
  · exact h.moveTo (by omega)
  · exact h

/-- New pieces that the frame keeps. -/
theorem setPieces {pieces : Pieces} (h : s.Confines t)
    (hp : pieces.Kept s.frame s.tokens objectSlips ∨ pieces.Kept s.frame s.tokens stateSlips) :
    s.Confines (t.setPieces pieces) :=
  ⟨h.tokens_eq, h.first_eq, h.last_eq, h.ahead, h.fragments, .inr hp⟩

end Confines

/-- A reader gives a frame that is kept, and does nothing else but move the cursor. -/
def Gives (s : Slicer) (slips : List Slip) (read : Frame × Slicer) : Prop :=
  s.frame.Keeps s.tokens slips read.1 ∧ s.Confines read.2

theorem gives_empty (h : s.Confines t) : s.Gives slips (Frame.empty, t) :=
  ⟨s.frame.keeps_empty s.tokens slips, h⟩

/-- A reader that starts at the next visible token, if that is inside the text. -/
theorem gives_inBounds (hs : s.Bounded) {read : Frame × Slicer} {operation : String}
    (hread : s.Confines s.skipHidden → 0 ≤ visibleFrom s.tokens s.frame.cursor →
      visibleFrom s.tokens s.frame.cursor < s.tokens.length →
      (s.frame.first ≤ visibleFrom s.tokens s.frame.cursor ∨
        s.frame.last < visibleFrom s.tokens s.frame.cursor) → s.Gives slips read) :
    s.Gives slips
      (if s.skipHidden.inBounds = true then read
        else (Frame.empty, s.skipHidden.outOfBounds operation)) := by
  have hskip := (Confines.refl hs).skipHidden
  split
  · rename_i hbounds
    obtain ⟨hnonneg, hlt⟩ := inBounds_iff.mp hbounds
    exact hread hskip hnonneg hlt hskip.ahead
  · exact gives_empty (hskip.report _)

/-- The group behind a name ends inside the frame, but not in front of its opener. -/
theorem groupLast_bounds (tokens : List Token) (last : Int) (closer : TokenId) (i : Int) :
    min i last ≤ groupLast tokens last closer i ∧ groupLast tokens last closer i ≤ last := by
  unfold groupLast
  dsimp only
  generalize hfound : scan tokens last (fun (_ : Bool) _ t =>
    if t = .lit closer then .stop false
    else if t = .lit TokenId.semicolon then .stop true
    else .next false) false (i + 1) = found
  have hends : ScanEnds tokens last (i + 1) found.index := by
    rw [← hfound]
    refine scan_ends ?_ _ _
    intro a i t b k hlook
    split at hlook
    · cases hlook
    · split at hlook <;> cases hlook
  have hle := hends.le
  split <;> omega

/-- **A name** is at most one token behind the frame. -/
theorem namePiece_gives (hs : s.Bounded) : s.Gives [.behind] s.namePiece := by
  refine gives_inBounds hs fun hskip hnonneg hlt hahead => ?_
  rw [skipHidden_tokens, skipHidden_cursor, skipHidden_last]
  have hopening := le_visibleFrom s.tokens (visibleFrom s.tokens s.frame.cursor + 1)
  split
  · rename_i closer _
    generalize hlast : groupLast s.tokens s.frame.last closer
      (visibleFrom s.tokens (visibleFrom s.tokens s.frame.cursor + 1)) = last
    obtain ⟨hlower, hupper⟩ := hlast ▸ groupLast_bounds s.tokens s.frame.last closer
      (visibleFrom s.tokens (visibleFrom s.tokens s.frame.cursor + 1))
    refine ⟨.inl ?_, hskip.passSemicolon (by omega)⟩
    by_cases hempty : last < visibleFrom s.tokens s.frame.cursor
    · exact .inl (decide_eq_true hempty)
    · refine .inr ⟨?_, hupper⟩
      show s.frame.first ≤ visibleFrom s.tokens s.frame.cursor
      omega
  · exact ⟨Frame.keeps_one hahead hnonneg hlt (by decide), hskip.passSemicolon (by omega)⟩

/-- **A value** is torn at most. -/
theorem statePiece_gives (hs : s.Bounded) : s.Gives [.torn] s.statePiece := by
  refine gives_inBounds hs fun hskip hnonneg hlt hahead => ?_
  rw [skipHidden_tokens, skipHidden_cursor, skipHidden_last]
  generalize hfound : scan s.tokens s.frame.last (fun (_ : Unit) i t =>
    if t = .lit TokenId.quote then .jump () (closingQuote s.tokens s.frame.last i)
    else if t = .lit TokenId.semicolon then .stop ()
    else .next ()) () (visibleFrom s.tokens s.frame.cursor) = found
  have hends : ScanEnds s.tokens s.frame.last (visibleFrom s.tokens s.frame.cursor)
      found.index := by
    rw [← hfound]
    refine scan_ends ?_ _ _
    intro a i t b k hlook
    split at hlook
    · cases hlook
      exact closingQuote_le _ _ _
    · split at hlook <;> cases hlook
  have hend := hends.le
  refine ⟨?_, hskip.moveTo (by split <;> omega)⟩
  by_cases hinside : visibleFrom s.tokens s.frame.cursor ≤ s.frame.last
  · exact Frame.keeps_torn (by omega) (hends.of_le hinside) (by decide)
  · have heq := hends.eq_of_lt (by omega)
    exact .inl (Frame.holds_nothing (by omega))

/-- **An initializer** is one token behind the frame or torn at most. -/
theorem initializerPiece_gives (hs : s.Bounded) : s.Gives [.behind, .torn] s.initializerPiece := by
  refine gives_inBounds hs fun hskip hnonneg hlt hahead => ?_
  rw [skipHidden_tokens, skipHidden_cursor, skipHidden_last]
  obtain ⟨hinside, houtside⟩ :=
    initializerEnd_ends s.tokens s.frame.last (visibleFrom s.tokens s.frame.cursor)
  generalize initializerEnd s.tokens s.frame.last (visibleFrom s.tokens s.frame.cursor) = stop
    at hinside houtside ⊢
  by_cases hv : visibleFrom s.tokens s.frame.cursor ≤ s.frame.last
  · have hend := (hinside hv).le
    exact ⟨Frame.keeps_torn (by omega) ((hinside hv).of_le hv) (by decide),
      hskip.passSemicolon (by omega)⟩
  · obtain ⟨hlower, hupper⟩ := houtside (by omega)
    refine ⟨?_, hskip.passSemicolon (by omega)⟩
    by_cases hempty : stop = visibleFrom s.tokens s.frame.cursor
    · exact .inl (Frame.holds_nothing (by omega))
    · rw [show stop - 1 = visibleFrom s.tokens s.frame.cursor by omega]
      exact Frame.keeps_one hahead hnonneg hlt (by decide)

theorem groupLook_jump {tokens : List Token} {last : Int} {opener closer : TokenId}
    {depth i d k : Int}
    {t : Token} (h : groupLook tokens last opener closer depth i t = .jump d k) : k ≤ last := by
  unfold groupLook at h
  split at h
  · cases h
    exact closingQuote_le tokens last i
  · split at h
    · split at h <;> cases h
    · split at h <;> cases h

/-- **The inside of a group** is inside the frame. -/
theorem groupPiece_gives (hs : s.Bounded) (opener closer : TokenId) :
    s.Gives [] (s.groupPiece opener closer) := by
  have hle := le_visibleFrom s.tokens s.frame.cursor
  have hahead := hs.ahead
  have hlast := hs.last_lt
  have hnonneg := hs.nonneg
  have hskip := (Confines.refl hs).skipHidden
  unfold groupPiece
  dsimp only
  split
  · exact gives_empty hskip
  · rename_i hopen
    obtain ⟨hinside, -⟩ := not_or.mp hopen
    rw [skipHidden_last, skipHidden_cursor] at hinside
    rw [skipHidden_tokens, skipHidden_cursor, skipHidden_last, indexAfter_of_lt (by omega)]
    generalize hfound : scanGroup s.tokens s.frame.last opener closer
      (visibleFrom s.tokens s.frame.cursor + 1) = found
    have hends : ScanEnds s.tokens s.frame.last (visibleFrom s.tokens s.frame.cursor + 1)
        found.index := by
      rw [← hfound, scanGroup_eq_scan]
      exact scan_ends (fun _ _ _ _ _ => groupLook_jump) _ _
    have hend := hends.le
    cases hstopped : found.stopped with
    | false =>
      simp only [Bool.false_eq_true, if_false]
      exact ⟨s.frame.keeps_empty s.tokens [], hskip.passSemicolon (by omega)⟩
    | true =>
      have hbounds : found.index ≤ s.frame.last := by
        rw [← hfound] at hstopped ⊢
        exact (scan_bounds _ _ hstopped).2
      have hbefore : indexBefore found.index = found.index - 1 := by
        unfold indexBefore leastIndex
        rw [if_neg (by omega)]
      simp only [if_true]
      rw [indexAfter_of_lt (by omega), hbefore]
      refine ⟨?_, hskip.passSemicolon (by omega)⟩
      split
      · exact s.frame.keeps_empty s.tokens []
      · refine .inl (.inr ⟨?_, ?_⟩)
        · show s.frame.first ≤ visibleFrom s.tokens s.frame.cursor + 1
          omega
        · show found.index - 1 ≤ s.frame.last
          omega

/-- The name of a state assignment is at most one index behind the frame. -/
theorem stateName_gives (hs : s.Bounded) : s.Gives [.beyond] s.stateName := by
  have hahead := hs.ahead
  unfold stateName
  split
  · exact ⟨.inl ((groupPiece_gives hs _ _).1.holds), (groupPiece_gives hs _ _).2⟩
  · split
    · exact gives_empty (.refl hs)
    · refine ⟨?_, (Confines.refl hs).moveTo (by omega)⟩
      by_cases hle : s.frame.cursor ≤ s.frame.last
      · refine .inl (.inr ⟨?_, hle⟩)
        show s.frame.first ≤ s.frame.cursor
        omega
      · refine .inr ⟨.beyond, by decide, rfl, ?_⟩
        show s.frame.last < s.frame.cursor
        omega

/-! ## 4. Declarations -/

/-- **The step to the next declaration** records fragments inside the frame. -/
theorem nextFrom_confines (hs : s.Bounded) (storage : StorageClass) :
    s.Confines (nextFrom storage s).2 := by
  fun_induction nextFrom storage s with
  | case1 storage s i hi => exact (Confines.refl hs).report _
  | case2 storage s i hi hend => exact .refl hs
  | case3 storage s i hi hend hhidden ih =>
    have hahead := hs.ahead
    have hmoved : s.Confines (s.moveTo (i + hiddenAt s.tokens i)) :=
      (Confines.refl hs).moveTo (by simp only [i]; omega)
    exact hmoved.trans (ih (hmoved.bounded hs))
  | case4 storage s i hi hend hhidden hlead ih =>
    have hahead := hs.ahead
    have hmoved : s.Confines (s.moveTo (i + 1)) :=
      (Confines.refl hs).moveTo (by simp only [i]; omega)
    exact hmoved.trans (ih (hmoved.bounded hs))
  | case5 storage s i hi hend hhidden f storage? hlead ih =>
    have hahead := hs.ahead
    have hlast := hs.last_lt
    have hinside : i ≤ s.frame.last := by omega
    obtain ⟨hfirst, hlower, hupper⟩ := Lead.fragment_bounds hinside hlead
    have hafter : indexAfter s.tokens.length (max i f.frame.last) = f.frame.last + 1 := by
      rw [show max i f.frame.last = f.frame.last by omega, indexAfter_of_lt (by omega)]
    have hheld : s.frame.Holds f.frame :=
      .inr ⟨by rw [hfirst]; simp only [i] at hinside ⊢; omega, hupper⟩
    have hmoved : s.Confines { s with
        fragments := s.fragments ++ [f]
        frame := { s.frame with cursor := indexAfter s.tokens.length (max i f.frame.last) } } := by
      refine ⟨rfl, rfl, rfl, ?_, ⟨[f], rfl, List.forall_mem_singleton.mpr hheld⟩, .inl rfl⟩
      show s.frame.first ≤ indexAfter s.tokens.length (max i f.frame.last) ∨
        s.frame.last < indexAfter s.tokens.length (max i f.frame.last)
      rw [hafter]
      omega
    exact hmoved.trans (ih (hmoved.bounded hs))
  | case6 storage s i hi hend hhidden id hlead =>
    have hahead := hs.ahead
    refine ⟨rfl, rfl, rfl, ?_, ⟨[], (List.append_nil _).symm, by simp⟩, .inl rfl⟩
    simp only [i]
    omega

theorem Confines.gives {read : Frame × Slicer} (h : s.Confines t) (hread : t.Gives slips read) :
    s.Gives slips read :=
  ⟨h.keeps hread.1, h.trans hread.2⟩

/-- The annotations at the cursor, in front of the name. -/
def annotationsBefore (s : Slicer) : Frame × Slicer :=
  if (s.here == .lit TokenId.less) = true then s.groupPiece TokenId.less TokenId.greater
  else (Frame.empty, s)

/-- The annotations behind the name, unless some were in front of it. -/
def annotationsAfter (annotated : Bool) (before : Frame) (s : Slicer) : Frame × Slicer :=
  if annotated then (before, s) else s.groupPiece TokenId.less TokenId.greater

theorem annotationsBefore_gives (hs : s.Bounded) : s.Gives [] s.annotationsBefore := by
  unfold annotationsBefore
  split
  · exact groupPiece_gives hs _ _
  · exact gives_empty (.refl hs)

theorem assignPiece_gives (hs : s.Bounded) : s.Gives [.behind] s.assignPiece := by
  have hahead := hs.ahead
  have hmoved := (Confines.refl hs).moveTo (show s.frame.first ≤ s.frame.cursor + 1 ∨ _ by omega)
  unfold assignPiece
  split
  · exact hmoved.gives (namePiece_gives (hmoved.bounded hs))
  · exact gives_empty (.refl hs)

theorem valuePiece_gives (hs : s.Bounded) : s.Gives [.behind, .torn] s.valuePiece := by
  have hahead := hs.ahead
  have hmoved := (Confines.refl hs).moveTo (show s.frame.first ≤ s.frame.cursor + 1 ∨ _ by omega)
  unfold valuePiece
  split
  · exact hmoved.gives (initializerPiece_gives (hmoved.bounded hs))
  · exact gives_empty (.refl hs)

theorem initialPieces_gives (hs : s.Bounded) :
    s.frame.Keeps s.tokens [.behind, .torn] s.initialPieces.1 ∧ s.Gives [] s.initialPieces.2 := by
  have hvalue := valuePiece_gives hs
  unfold initialPieces
  split
  · exact ⟨hvalue.1, hvalue.2.gives (groupPiece_gives (hvalue.2.bounded hs) _ _)⟩
  · exact ⟨s.frame.keeps_empty s.tokens _, gives_empty (.refl hs)⟩

/-- **The pieces of an object.** -/
theorem objectPieces_confines (hs : s.Bounded) : s.Confines s.objectPieces := by
  show
    let before := s.skipHidden.annotationsBefore
    let name := before.2.namePiece
    let assign := name.2.skipHidden.assignPiece
    let annotations := assign.2.annotationsAfter (s.skipHidden.here == .lit TokenId.less) before.1
    let initial := annotations.2.skipHidden.initialPieces
    s.Confines (initial.2.2.skipHidden.passHere.setPieces
      ⟨name.1, assign.1, initial.1, initial.2.1, annotations.1⟩)
  intro before name assign annotations initial
  have hstart := (Confines.refl hs).skipHidden
  have hbefore : s.Gives [] before := hstart.gives (annotationsBefore_gives (hstart.bounded hs))
  have hname : s.Gives [.behind] name := hbefore.2.gives (namePiece_gives (hbefore.2.bounded hs))
  have hnamed := hname.2.skipHidden
  have hassign : s.Gives [.behind] assign := hnamed.gives (assignPiece_gives (hnamed.bounded hs))
  have hannotations : s.Gives [] annotations := by
    simp only [annotations, annotationsAfter]
    split
    · exact ⟨hbefore.1, hassign.2⟩
    · exact hassign.2.gives (groupPiece_gives (hassign.2.bounded hs) _ _)
  have hannotated := hannotations.2.skipHidden
  obtain ⟨hvalue, hdata⟩ := initialPieces_gives (hannotated.bounded hs)
  have hinitial : s.Gives [] initial.2 := hannotated.gives hdata
  exact hinitial.2.skipHidden.passHere.setPieces
    (.inl ⟨hname.1, hassign.1, hannotated.keeps hvalue, hinitial.1, hannotations.1⟩)

theorem indexPiece_confines (hs : s.Bounded) : s.Confines s.indexPiece.2 := by
  have hskip := (Confines.refl hs).skipHidden
  unfold indexPiece
  dsimp only
  split
  · split
    · exact hskip.nextVisible.nextVisible.nextVisible
    · exact hskip.nextVisible.nextVisible
  · exact hskip

/-- The value behind an equality sign, or the data in braces. -/
theorem bodyPiece_gives (hs : s.Bounded) : s.Gives [.torn] s.bodyPiece := by
  have hahead := hs.ahead
  have hmoved := (Confines.refl hs).moveTo (show s.frame.first ≤ s.frame.cursor + 1 ∨ _ by omega)
  unfold bodyPiece
  split
  · exact hmoved.gives (statePiece_gives (hmoved.bounded hs))
  · obtain ⟨hkept, hgroup⟩ := groupPiece_gives hs TokenId.leftBrace TokenId.rightBrace
    exact ⟨.inl hkept.holds, hgroup⟩

theorem Confines.passSign (h : s.Confines t) : s.Confines t.passSign := by
  have hahead := h.ahead
  unfold Slicer.passSign
  split
  · exact h.moveTo (by omega)
  · exact h

/-- **The pieces of a state assignment.** -/
theorem statePieces_confines (hs : s.Bounded) : s.Confines s.statePieces.2 := by
  rw [statePieces_eq]
  have hindex := indexPiece_confines hs
  have hname := hindex.gives (stateName_gives (hindex.bounded hs))
  have hnamed := hname.2.skipHidden
  have hdata := hnamed.gives (bodyPiece_gives (hnamed.bounded hs))
  have hempty : ∀ slips, s.frame.Keeps s.tokens slips .empty := s.frame.keeps_empty s.tokens
  exact hdata.2.skipHidden.passSign.setPieces
    (.inr ⟨hname.1, hempty _, hempty _, hdata.1, hempty _⟩)

/-- A keyword that may be expected, and no pieces. -/
theorem Confines.expects (h : s.Confines t) (id : TokenId) (expected : List TokenId) :
    s.Confines ((t.setPieces .empty).expects id expected).2 := by
  have hempty : ∀ slips, s.frame.Keeps s.tokens slips .empty := s.frame.keeps_empty s.tokens
  have hpieces : s.Confines (t.setPieces .empty) :=
    h.setPieces (.inl ⟨hempty _, hempty _, hempty _, hempty _, hempty _⟩)
  unfold Slicer.expects
  split
  · exact hpieces
  · exact hpieces.report _

theorem readObject_confines (hs : s.Bounded) (expected : List TokenId) :
    s.Confines (s.readObject expected).2 := by
  have hnext : s.Confines s.next.2 := nextFrom_confines hs .default
  have hlead := hnext.expects s.next.1.id expected
  unfold readObject
  split
  · exact .refl hs
  · split
    · exact (Confines.refl hs).report _
    · dsimp only
      split
      · exact hnext
      · split
        · exact hlead.trans (objectPieces_confines (hlead.bounded hs))
        · exact hlead

theorem readState_confines (hs : s.Bounded) (expected : List TokenId) :
    s.Confines (s.readState expected).2.2 := by
  have hnext : s.Confines s.next.2 := nextFrom_confines hs .default
  have hlead := hnext.expects s.next.1.id expected
  unfold readState
  split
  · exact (Confines.refl hs).report _
  · split
    · exact .refl hs
    · dsimp only
      split
      · exact hnext
      · split
        · exact hlead.trans (statePieces_confines (hlead.bounded hs))
        · exact hlead

end Readers

/-! ## 5. Requests -/

/-- What can be asked of a slicer. -/
inductive Request where
  | next
  | object (expected : List TokenId)
  | state (expected : List TokenId)
  | name
  | value
  | initializer
  | group (opener closer : TokenId)

/-- The slips of the frame that a request gives. -/
def Request.slips : Request → List Slip
  | name => [.behind]
  | value => [.torn]
  | initializer => [.behind, .torn]
  | _ => []

/-- The frame that a request gives, if it gives one, and the slicer after it. -/
def perform (s : Slicer) : Request → Option Frame × Slicer
  | .next => (none, s.next.2)
  | .object expected => (none, (s.readObject expected).2)
  | .state expected => (none, (s.readState expected).2.2)
  | .name => s.namePiece.map some id
  | .value => s.statePiece.map some id
  | .initializer => s.initializerPiece.map some id
  | .group opener closer => (s.groupPiece opener closer).map some id

variable {s : Slicer}

/-- **One request.** -/
theorem perform_confines (hs : s.Bounded) (request : Request) :
    (∀ p ∈ (s.perform request).1, s.frame.Keeps s.tokens request.slips p) ∧
      s.Confines (s.perform request).2 := by
  have hread : ∀ {slips : List Slip} {read : Frame × Slicer}, s.Gives slips read →
      (∀ p ∈ (read.map some id).1, s.frame.Keeps s.tokens slips p) ∧
        s.Confines (read.map some id).2 := by
    intro slips read hgives
    refine ⟨fun p hp => ?_, hgives.2⟩
    obtain rfl : read.1 = p := Option.some.inj hp
    exact hgives.1
  cases request with
  | next => exact ⟨by simp [perform], nextFrom_confines hs .default⟩
  | object expected => exact ⟨by simp [perform], readObject_confines hs expected⟩
  | state expected => exact ⟨by simp [perform], readState_confines hs expected⟩
  | name => exact hread (namePiece_gives hs)
  | value => exact hread (statePiece_gives hs)
  | initializer => exact hread (initializerPiece_gives hs)
  | group opener closer => exact hread (groupPiece_gives hs opener closer)

/-- The slicer after some requests. -/
def afterRequests (s : Slicer) (requests : List Request) : Slicer :=
  requests.foldl (fun s request => (s.perform request).2) s

/-- **Any number of requests.** -/
theorem afterRequests_confines (hs : s.Bounded) (requests : List Request) :
    s.Confines (s.afterRequests requests) := by
  induction requests generalizing s with
  | nil => exact .refl hs
  | cons request requests ih =>
    have hfirst := (perform_confines hs request).2
    exact hfirst.trans (ih (hfirst.bounded hs))

/-- A frame that is entered has its ends moved inside the text, and the cursor at its first
token. -/
theorem enterFrame_frame (s : Slicer) (f : Frame) :
    (s.enterFrame f).frame
        = ⟨max f.first 0, min f.last (s.tokens.length - 1), max f.first 0⟩ ∧
      (s.enterFrame f).tokens = s.tokens ∧ (s.enterFrame f).fragments = s.fragments ∧
      (s.enterFrame f).pieces = s.pieces := by
  unfold enterFrame
  have hclamp : ∀ first last : Int, first = max f.first 0 →
      last = min f.last (s.tokens.length - 1) →
      (⟨first, last, first⟩ : Frame)
        = ⟨max f.first 0, min f.last (s.tokens.length - 1), max f.first 0⟩ := by
    rintro _ _ rfl rfl
    rfl
  by_cases hfirst : f.first < 0
  · by_cases hlast : (s.tokens.length : Int) ≤ f.last
    · simp only [if_pos hfirst, if_pos hlast]
      exact ⟨hclamp _ _ (by omega) (by omega), rfl, rfl, rfl⟩
    · simp only [if_pos hfirst, if_neg hlast]
      exact ⟨hclamp _ _ (by omega) (by omega), rfl, rfl, rfl⟩
  · by_cases hlast : (s.tokens.length : Int) ≤ f.last
    · simp only [if_neg hfirst, if_pos hlast]
      exact ⟨hclamp _ _ (by omega) (by omega), rfl, rfl, rfl⟩
    · simp only [if_neg hfirst, if_neg hlast, and_self, and_true]
      exact hclamp _ _ (by omega) (by omega)

theorem enterFrame_bounded (s : Slicer) (f : Frame) : (s.enterFrame f).Bounded := by
  obtain ⟨hframe, htokens, -, -⟩ := enterFrame_frame s f
  constructor
  · rw [hframe]
    exact Int.le_max_right _ _
  · rw [hframe, htokens]
    show min f.last ((s.tokens.length : Int) - 1) < s.tokens.length
    omega
  · rw [hframe]
    exact .inl (Int.le_refl _)

end Slicer

/-- **Requests stay inside their frame, but for slips.**  A frame that is entered has its ends moved
inside the text.  Whatever is asked of the slicer then, the frames that it gives and stores are kept
by that frame, and the fragments that it records are inside.  What is kept is inside the text,
unless it may be beyond it; and in a frame that reaches to the end of the text nothing else
slips. -/
theorem requests_confined (s : Slicer) (f : Frame) (requests : List Slicer.Request) :
    let frame := (s.enterFrame f).frame
    let t := (s.enterFrame f).afterRequests requests
    (frame.first = max f.first 0 ∧ frame.last = min f.last (s.tokens.length - 1)) ∧
    (t.frame.first = frame.first ∧ t.frame.last = frame.last) ∧
    (∀ request, ∀ p ∈ (t.perform request).1, frame.Keeps s.tokens request.slips p) ∧
    (∃ fragments, t.fragments = s.fragments ++ fragments ∧ ∀ x ∈ fragments, frame.Holds x.frame) ∧
    (t.pieces = s.pieces ∨ t.pieces.Kept frame s.tokens Slicer.objectSlips ∨
      t.pieces.Kept frame s.tokens Slicer.stateSlips) ∧
    (∀ slips p, frame.Keeps s.tokens slips p →
      (.beyond ∉ slips → p.InText s.tokens) ∧
      (s.tokens.length ≤ f.last + 1 → frame.Holds p ∨ .beyond ∈ slips ∧
        Slip.beyond.Of s.tokens frame p)) := by
  intro frame t
  have hs := Slicer.enterFrame_bounded s f
  obtain ⟨hframe, htokens, hfragments, hpieces⟩ := Slicer.enterFrame_frame s f
  have hlast : frame.last = min f.last (s.tokens.length - 1) := congrArg Frame.last hframe
  have hrun : (s.enterFrame f).Confines t := Slicer.afterRequests_confines hs requests
  refine ⟨⟨congrArg Frame.first hframe, hlast⟩, ⟨hrun.first_eq, hrun.last_eq⟩, ?_, ?_, ?_, ?_⟩
  · intro request p hp
    rw [← htokens]
    exact hrun.keeps ((Slicer.perform_confines (hrun.bounded hs) request).1 p hp)
  · obtain ⟨new, hnew, hheld⟩ := hrun.fragments
    exact ⟨new, hfragments ▸ hnew, hheld⟩
  · rw [← htokens, ← hpieces]
    exact hrun.pieces
  · intro slips p hp
    exact ⟨hp.inText hs.nonneg (by omega), fun hend => hp.of_end (by omega)⟩

/-- A value in a frame that starts in front of the text and cuts a hidden unit. -/
theorem requests_confined_cut :
    let s := Slicer.ofTokens [.lit 44, .skipOne, .lit 45, .lit TokenId.semicolon] ⟨[]⟩
    let t := s.enterFrame ⟨-1, 1, -1⟩
    t.frame.first = 0 ∧ t.frame.last = 1 ∧ (t.perform .value).1 = some (Frame.ofBounds 0 2) ∧
      t.frame.Keeps s.tokens [.torn] (Frame.ofBounds 0 2) ∧
        (Frame.ofBounds 0 2).InText s.tokens := by
  have hread :
      ((Slicer.ofTokens [.lit 44, .skipOne, .lit 45, .lit TokenId.semicolon] ⟨[]⟩).enterFrame
      ⟨-1, 1, -1⟩ |>.perform .value).1 = some (Frame.ofBounds 0 2) := by cbv
  obtain ⟨⟨hfirst, hlast⟩, -, hgiven, -, -, hall⟩ :=
    requests_confined (Slicer.ofTokens [.lit 44, .skipOne, .lit 45, .lit TokenId.semicolon] ⟨[]⟩)
      ⟨-1, 1, -1⟩ []
  have hkept := hgiven .value (Frame.ofBounds 0 2) hread
  exact ⟨hfirst, hlast, hread, hkept, (hall _ _ hkept).1 (by decide)⟩

/-- **Each slip happens.**  The name of an assignment that ends with the text is behind it; a name
is read behind the frame; and a value ends with a hidden token behind the frame. -/
theorem requests_slip :
    (let s :=
      (Slicer.ofTokens [.lit 64, .lit TokenId.leftBracket, .lit TokenId.one,
        .lit TokenId.rightBracket]
       ⟨[]⟩).enterFrame (Frame.ofBounds 0 3)
     (s.afterRequests [.state [64]]).pieces.name = Frame.ofBounds 4 4) ∧
    (let s := (Slicer.ofTokens [.lit 44, .lit 45] ⟨[]⟩).enterFrame (Frame.ofBounds 0 0)
     ((s.afterRequests [.next]).perform .name).1 = some (Frame.ofBounds 1 1)) ∧
    (let s := (Slicer.ofTokens [.lit 44, .skipOne, .lit 45] ⟨[]⟩).enterFrame (Frame.ofBounds 0 1)
     (s.perform .value).1 = some (Frame.ofBounds 0 2)) := by
  refine ⟨by cbv, by cbv, by cbv⟩

end EffectScript
