import EffectScript.Proofs.Pieces
import EffectScript.Proofs.Tiling

/-!
# Declarations one by one

A declaration is

    keyword name [: assign] [< annotations >] [= value | = run { data } | { data }] ;

and its parts are texts of `EffectScript.Proofs.Pieces`.  The readers of the parts share one cursor,
and a reader takes the semicolon too if it comes next.  So the semicolon goes with the last part
that is there, and a reader whose part is absent then looks at the declaration behind (`remains`).
That one starts with a word, and no part does.

Main statement: `readObject_declarations`, about a text that shows declarations and hides anything
between their tokens.
-/

namespace EffectScript

/-! ## 1. Declarations -/

/-- What a declaration starts its object with. -/
inductive Initial where
  | absent
  | value (v : ValueText)
  | valueData (r : RunText) (g : GroupText TokenId.leftBrace TokenId.rightBrace)
  | data (g : GroupText TokenId.leftBrace TokenId.rightBrace)

namespace Initial

def render : Initial → List TokenId
  | absent => []
  | value v => TokenId.equals :: v.render
  | valueData r g => TokenId.equals :: (r.ids ++ g.render)
  | data g => g.render

def valueIds : Initial → List TokenId
  | value v => v.render
  | valueData r _ => r.ids
  | _ => []

def dataText : Initial → List TokenId
  | valueData _ g => g.render
  | data g => g.render
  | _ => []

def dataIds : Initial → List TokenId
  | valueData _ g => g.inside
  | data g => g.inside
  | _ => []

end Initial

/-- A declaration of an object.  Its keyword is a word that leads no fragment, and the group behind
its name, if there is one, is in brackets. -/
structure Declaration where
  keyword : TokenId
  isWord : keyword.isSign = false
  unqualified : StorageClass.ofToken (.lit keyword) = .default
  undirected : keyword.isDirective = false
  name : NameText
  square : ∀ g, name.group = some g → g.bracket = .square
  assign : Option NameText
  annotations : Option (GroupText TokenId.less TokenId.greater)
  initial : Initial

namespace Declaration

variable (d : Declaration)

def assignText : List TokenId := d.assign.elim [] fun n => TokenId.colon :: n.render

def annotationText : List TokenId := d.annotations.elim [] GroupText.render

/-- The parts behind the name. -/
def tail : List TokenId := d.assignText ++ (d.annotationText ++ d.initial.render)

def render : List TokenId := d.keyword :: (d.name.render ++ (d.tail ++ [TokenId.semicolon]))

end Declaration

/-- The pieces show the parts of a declaration; the piece of an absent part is empty. -/
structure Pieces.Show (p : Pieces) (tokens : List Token) (d : Declaration) : Prop where
  name : p.name.Shows tokens d.name.render
  assign : p.assign.Shows tokens (d.assign.elim [] NameText.render)
  annotations : p.annotations.Shows tokens (d.annotations.elim [] GroupText.inside)
  value : p.value.Shows tokens d.initial.valueIds
  data : p.data.Shows tokens d.initial.dataIds

/-! ## 2. What remains of a declaration -/

/-- What is in front of the cursor when `parts` of a declaration are still to be read and `rest` is
behind it: the semicolon went with the last part. -/
def remains (parts rest : List TokenId) : List TokenId :=
  if parts = [] then rest else parts ++ TokenId.semicolon :: rest

theorem remains_nil (rest : List TokenId) : remains [] rest = rest := rfl

theorem remains_cons (id : TokenId) (parts rest : List TokenId) :
    remains (id :: parts) rest = id :: (parts ++ TokenId.semicolon :: rest) := rfl

theorem dropSemicolon_parts {parts : List TokenId} (h : parts.headD TokenId.eol ≠ TokenId.semicolon)
    (rest : List TokenId) :
    dropSemicolon (parts ++ TokenId.semicolon :: rest) = remains parts rest := by
  cases parts with
  | nil => rfl
  | cons id parts => exact if_neg h

theorem headD_ne {parts starts : List TokenId} {x : TokenId} (h : parts.headD TokenId.eol ∈ starts)
    (hx : x ∉ starts) : parts.headD TokenId.eol ≠ x :=
  fun heq => hx (heq ▸ h)

/-- A sign that starts none of the parts does not come next, when a word is behind them. -/
theorem headD_remains_ne {parts rest : List TokenId} {x : TokenId} (hx : x.isSign = true)
    (hparts : parts.headD TokenId.eol ≠ x) (hrest : (rest.headD TokenId.eol).isSign = false) :
    (remains parts rest).headD TokenId.eol ≠ x := by
  cases parts with
  | nil =>
    rintro rfl
    rw [remains_nil] at hx
    exact Bool.false_ne_true (hrest.symm.trans hx)
  | cons id parts => exact hparts

namespace Declaration

variable (d : Declaration)

theorem headD_initial (i : Initial) :
    i.render.headD TokenId.eol ∈ [TokenId.eol, TokenId.equals, TokenId.leftBrace] := by
  cases i <;> simp [Initial.render, GroupText.render]

theorem headD_annotations :
    (d.annotationText ++ d.initial.render).headD TokenId.eol ∈
      [TokenId.eol, TokenId.less, TokenId.equals, TokenId.leftBrace] := by
  have hinitial := headD_initial d.initial
  unfold annotationText
  cases d.annotations with
  | none => exact (show [TokenId.eol, TokenId.equals, TokenId.leftBrace] ⊆ _ by decide) hinitial
  | some a => simp [GroupText.render]

theorem headD_tail :
    d.tail.headD TokenId.eol ∈
      [TokenId.eol, TokenId.colon, TokenId.less, TokenId.equals, TokenId.leftBrace] := by
  have hannotations := d.headD_annotations
  unfold tail assignText
  cases d.assign with
  | none =>
    exact (show [TokenId.eol, TokenId.less, TokenId.equals, TokenId.leftBrace] ⊆ _ by decide)
      hannotations
  | some n => simp

theorem render_append (rest : List TokenId) :
    d.render ++ rest = d.keyword :: (d.name.render ++ (d.tail ++ TokenId.semicolon :: rest)) := by
  simp [render]

/-- A declaration starts with a word. -/
theorem headD_flatMap_render (decls : List Declaration) :
    ((decls.flatMap render).headD TokenId.eol).isSign = false := by
  cases decls with
  | nil => rfl
  | cons d decls => exact d.isWord

end Declaration

namespace Slicer

variable {s : Slicer} {rest : List TokenId} {d : Declaration}

/-! ## 3. The optional parts -/

/-- The name behind a colon at the cursor. -/
def assignPiece (s : Slicer) : Frame × Slicer :=
  if s.here = .lit TokenId.colon then (s.moveTo (s.frame.cursor + 1)).namePiece
  else (Frame.empty, s)

/-- The initializer behind an equality sign at the cursor. -/
def valuePiece (s : Slicer) : Frame × Slicer :=
  if s.here = .lit TokenId.equals then (s.moveTo (s.frame.cursor + 1)).initializerPiece
  else (Frame.empty, s)

/-- The initializer and the data at the cursor; neither is there behind the end of the frame. -/
def initialPieces (s : Slicer) : Frame × Frame × Slicer :=
  if s.frame.cursor ≤ s.frame.last then
    let value := s.valuePiece
    let data := value.2.groupPiece TokenId.leftBrace TokenId.rightBrace
    (value.1, data.1, data.2)
  else (Frame.empty, Frame.empty, s)

/-- Reading the pieces of an object that does not start with annotations, reader by reader. -/
theorem objectPieces_eq (h : s.skipHidden.here ≠ .lit TokenId.less) :
    s.objectPieces =
      let name := s.skipHidden.namePiece
      let assign := name.2.skipHidden.assignPiece
      let annotations := assign.2.groupPiece TokenId.less TokenId.greater
      let initial := annotations.2.skipHidden.initialPieces
      initial.2.2.skipHidden.passHere.setPieces
        ⟨name.1, assign.1, initial.1, initial.2.1, annotations.1⟩ := by
  have hplain : (s.skipHidden.here == .lit TokenId.less) = false := beq_false_of_ne h
  unfold objectPieces
  simp only [hplain, Bool.false_eq_true, if_false]
  rfl

theorem closer?_parts {parts : List TokenId}
    (hsquare : parts.headD TokenId.eol ≠ TokenId.leftBracket)
    (hround : parts.headD TokenId.eol ≠ TokenId.leftParen) (rest : List TokenId) :
    closer? (.lit ((parts ++ TokenId.semicolon :: rest).headD TokenId.eol)) = none := by
  cases parts with
  | nil => rfl
  | cons id parts =>
    unfold closer?
    rw [if_neg (by simpa using hsquare), if_neg (by simpa using hround)]

/-- What is read behind another piece is read from where that one started, too. -/
theorem Reads.after {read read' : Frame × Slicer} {piece piece' ids ids' : List TokenId}
    (h : s.Reads read piece ids) (h' : read.2.Reads read' piece' ids') :
    s.Reads read' piece' ids' := by
  obtain ⟨i, -, heq, -⟩ := h.moves
  rw [heq] at h'
  exact h'.of_moveTo

theorem At.reads_no_value {ids : List TokenId} (h : s.At ids)
    (hids : ids.headD TokenId.eol ≠ TokenId.equals) : s.Reads s.skipHidden.valuePiece [] ids := by
  have hequals : s.skipHidden.here ≠ .lit TokenId.equals := by
    rw [h.here_skipHidden, ne_eq, Token.lit.injEq]
    exact hids
  refine Reads.of_moveTo (i := visibleFrom s.tokens s.frame.cursor) ?_
  rw [valuePiece, if_neg hequals]
  exact h.skipHidden.reads_nothing

theorem At.reads_value {y : TokenId} {ids : List TokenId} (v : ValueText)
    (hy : y = TokenId.semicolon ∨ y = TokenId.leftBrace ∧ ∃ r, v = .run r)
    (h : s.At (TokenId.equals :: (v.render ++ y :: ids))) :
    s.Reads s.skipHidden.valuePiece v.render (dropSemicolon (y :: ids)) := by
  have hequals : s.skipHidden.here = .lit TokenId.equals := h.here_skipHidden
  rw [valuePiece, if_pos hequals]
  exact (h.behind.reads_initializerPiece v hy).of_moveTo.of_moveTo

variable (hrest : (rest.headD TokenId.eol).isSign = false)

include hrest

/-- The name behind the colon, if there is one. -/
theorem At.reads_assignPiece (h : s.At (remains d.tail rest)) :
    s.Reads s.skipHidden.assignPiece (d.assign.elim [] NameText.render)
      (remains (d.annotationText ++ d.initial.render) rest) := by
  have hstart := d.headD_annotations
  refine Reads.of_moveTo (i := visibleFrom s.tokens s.frame.cursor) ?_
  unfold assignPiece
  unfold Declaration.tail Declaration.assignText at h
  cases hassign : d.assign with
  | none =>
    rw [hassign, Option.elim_none, List.nil_append] at h
    have hcolon : s.skipHidden.here ≠ .lit TokenId.colon := by
      rw [h.here_skipHidden, ne_eq, Token.lit.injEq]
      exact headD_remains_ne rfl (headD_ne hstart (by decide)) hrest
    rw [if_neg hcolon]
    exact h.skipHidden.reads_nothing
  | some n =>
    rw [hassign, Option.elim_some, List.cons_append, remains_cons, List.append_assoc] at h
    have hcolon : s.skipHidden.here = .lit TokenId.colon := h.here_skipHidden
    rw [if_pos hcolon, ← dropSemicolon_parts (headD_ne hstart (by decide))]
    exact Reads.of_moveTo (h.behind.reads_namePiece n fun _ =>
      closer?_parts (headD_ne hstart (by decide)) (headD_ne hstart (by decide)) rest)

/-- The annotations, if there are any. -/
theorem At.reads_annotations (h : s.At (remains (d.annotationText ++ d.initial.render) rest)) :
    s.Reads (s.groupPiece TokenId.less TokenId.greater) (d.annotations.elim [] GroupText.inside)
      (remains d.initial.render rest) := by
  have hstart := Declaration.headD_initial d.initial
  unfold Declaration.annotationText at h
  cases hannotations : d.annotations with
  | none =>
    rw [hannotations, Option.elim_none, List.nil_append] at h
    exact h.reads_no_group (headD_remains_ne rfl (headD_ne hstart (by decide)) hrest)
  | some a =>
    have hat : s.At (a.render ++ (d.initial.render ++ TokenId.semicolon :: rest)) := by
      rw [hannotations, Option.elim_some] at h
      rw [← List.append_assoc]
      exact h
    rw [← dropSemicolon_parts (headD_ne hstart (by decide))]
    exact hat.reads_groupPiece a (by decide) (by decide) (by decide)

/-- The initializer behind the equality sign, if there is one. -/
theorem At.reads_valuePiece {i : Initial} (h : s.At (remains i.render rest)) :
    s.Reads s.skipHidden.valuePiece i.valueIds (remains i.dataText rest) := by
  cases i with
  | absent => exact h.reads_no_value (headD_remains_ne rfl (by decide) hrest)
  | value v =>
    have hat : s.At (TokenId.equals :: (v.render ++ TokenId.semicolon :: rest)) := h
    exact hat.reads_value v (.inl rfl)
  | valueData r g =>
    have hat : s.At (TokenId.equals :: ((ValueText.run r).render ++
        TokenId.leftBrace :: (g.inside ++ [TokenId.rightBrace] ++ TokenId.semicolon :: rest))) := by
      rw [Initial.render, remains_cons, List.append_assoc] at h
      exact h
    exact hat.reads_value (.run r) (.inr ⟨rfl, r, rfl⟩)
  | data g => exact h.reads_no_value (show TokenId.leftBrace ≠ TokenId.equals by decide)

/-- The data, if there are any. -/
theorem At.reads_data {i : Initial} (h : s.At (remains i.dataText rest)) :
    s.Reads (s.groupPiece TokenId.leftBrace TokenId.rightBrace) i.dataIds rest := by
  have hword : (remains [] rest).headD TokenId.eol ≠ TokenId.leftBrace :=
    headD_remains_ne rfl (by decide) hrest
  have hnone : s.At rest → s.Reads (s.groupPiece TokenId.leftBrace TokenId.rightBrace) [] rest :=
    fun hat => hat.reads_no_group hword
  have hsome : ∀ g : GroupText TokenId.leftBrace TokenId.rightBrace,
      s.At (g.render ++ TokenId.semicolon :: rest) →
        s.Reads (s.groupPiece TokenId.leftBrace TokenId.rightBrace) g.inside rest :=
    fun g hat => hat.reads_groupPiece g (by decide) (by decide) (by decide)
  cases i with
  | absent => exact hnone h
  | value v => exact hnone h
  | valueData r g => exact hsome g h
  | data g => exact hsome g h

/-- The initializer and the data. -/
theorem At.reads_initialPieces {i : Initial} (h : s.At (remains i.render rest)) :
    s.skipHidden.initialPieces.1.Shows s.tokens i.valueIds ∧
      s.Reads s.skipHidden.initialPieces.2 i.dataIds rest := by
  unfold initialPieces
  by_cases hle : s.skipHidden.frame.cursor ≤ s.skipHidden.frame.last
  · rw [if_pos hle]
    have hvalue := h.reads_valuePiece hrest
    exact ⟨hvalue.shows, hvalue.after ((hvalue.at_rest h).reads_data hrest)⟩
  · -- Behind the last token nothing is left to read.
    rw [if_neg hle]
    have hnil : remains i.render rest = [] := by
      cases hids : remains i.render rest with
      | nil => rfl
      | cons id ids =>
        rw [hids] at h
        obtain ⟨-, -, -, -, hlt⟩ := h.token
        have hlast := h.last_eq
        rw [skipHidden_cursor, skipHidden_last] at hle
        omega
    cases i with
    | absent => exact ⟨Frame.empty_shows _, h.skipHidden.reads_nothing.of_moveTo⟩
    | value v => cases hnil
    | valueData r g => cases hnil
    | data g => cases hnil

/-! ## 4. One declaration -/

/-- No semicolon is passed in front of a word. -/
theorem At.passHere_eq (h : s.At rest) : s.skipHidden.passHere = s.skipHidden := by
  have hword : (remains [] rest).headD TokenId.eol ≠ TokenId.semicolon :=
    headD_remains_ne rfl (by decide) hrest
  refine if_neg ?_
  rintro ⟨-, hsemicolon⟩
  rw [h.here_skipHidden, Token.lit.injEq] at hsemicolon
  exact hword hsemicolon

/-- **The pieces of a declaration behind its keyword.**  The cursor is then in front of what
follows. -/
theorem At.objectPieces (h : s.At (d.name.render ++ (d.tail ++ TokenId.semicolon :: rest))) :
    ∃ i seen pieces, s.objectPieces = (s.moveTo i).setPieces pieces ∧
      pieces.Show s.tokens d ∧ Stands s.tokens i seen rest := by
  have hstart := d.headD_tail
  have hless : s.skipHidden.here ≠ .lit TokenId.less := by
    rw [h.here_skipHidden, ne_eq, Token.lit.injEq]
    rintro hword
    have hsign : d.name.word.isSign = true := by
      rw [show d.name.word = TokenId.less from hword]
      rfl
    exact Bool.false_ne_true (d.name.isWord.symm.trans hsign)
  -- The readers one after the other, each of them from where the one before it left the cursor.
  have hname := h.skipHidden.reads_namePiece d.name fun _ =>
    closer?_parts (headD_ne hstart (by decide)) (headD_ne hstart (by decide)) rest
  rw [dropSemicolon_parts (headD_ne hstart (by decide))] at hname
  have hnamed := hname.at_rest h.skipHidden
  have hassign := hnamed.reads_assignPiece hrest
  have hassigned := hassign.at_rest hnamed
  have hannotations := hassigned.reads_annotations hrest
  have hannotated := hannotations.at_rest hassigned
  obtain ⟨hvalue, hdata⟩ := hannotated.reads_initialPieces hrest
  have hall := (hname.after (hassign.after (hannotations.after hdata))).of_moveTo
  have htokens := hassign.tokens_eq.trans hname.tokens_eq
  rw [hannotations.tokens_eq, htokens] at hvalue
  obtain ⟨i, seen, heq, hi⟩ := hall.moves
  have hbehind : (s.moveTo i).At rest := h.moveTo hi
  refine ⟨visibleFrom s.tokens i, seen, ⟨_, _, _, _, _⟩, ?_,
    ⟨hname.shows, hname.tokens_eq ▸ hassign.shows, htokens ▸ hannotations.shows, hvalue,
      hall.shows⟩,
    hi.to_visible.1⟩
  rw [objectPieces_eq hless]
  dsimp only
  rw [heq, hbehind.passHere_eq hrest]
  rfl

omit hrest

/-- A step starts at the next visible token. -/
theorem At.nextFrom_skipHidden {ids : List TokenId} (h : s.At ids) (storage : StorageClass) :
    nextFrom storage s = nextFrom storage s.skipHidden := by
  induction hn : (s.tokens.length - s.frame.cursor).toNat using Nat.strongRecOn generalizing s with
  | ind n ih =>
    obtain ⟨seen, hi⟩ := h.stands
    have hlast := h.last_eq
    unfold Slicer.skipHidden
    rcases Nat.eq_zero_or_pos (hiddenAt s.tokens s.frame.cursor) with hzero | hhidden
    · rw [visibleFrom_of_hiddenAt hzero]
      rfl
    · have hbounds := lt_length_of_hiddenAt_pos hhidden
      rcases hi.step with ⟨hend, -⟩ | ⟨-, hnext⟩ | ⟨id, rest, -, hzero, -⟩
      · omega
      · rw [visibleFrom_of_hidden hhidden, nextFrom]
        dsimp only
        rw [if_neg (by omega), dif_neg (by omega), if_pos hhidden]
        exact ih _ (by simp only [Slicer.moveTo]; omega) (h.moveTo hnext) rfl
      · omega

/-- No parenthesis follows the word of the name. -/
theorem headD_behind_word (d : Declaration) (ids : List TokenId) :
    (d.name.groupIds ++ (d.tail ++ TokenId.semicolon :: ids)).headD TokenId.eol
      ≠ TokenId.leftParen := by
  have hstart := d.headD_tail
  unfold NameText.groupIds
  cases hgroup : d.name.group with
  | none =>
    intro heq
    have hcloser := closer?_parts (headD_ne hstart (by decide)) (headD_ne hstart (by decide)) ids
    rw [List.nil_append] at heq
    rw [heq] at hcloser
    exact absurd hcloser (by decide)
  | some g =>
    show g.bracket.opener ≠ TokenId.leftParen
    rw [d.square g hgroup]
    decide

/-- A keyword with its name starts no function. -/
theorem function?_keyword {tokens : List Token} {last i : Int} {seen ids : List TokenId}
    (h : Stands tokens i seen
      (d.keyword :: (d.name.render ++ (d.tail ++ TokenId.semicolon :: ids))))
    (hzero : hiddenAt tokens i = 0) (hbracket : d.keyword ≠ TokenId.leftBracket) :
    function? tokens last i = none := by
  obtain ⟨htoken, hname⟩ := h.at_visible hzero
  have hstart : afterAttributes? tokens last i = some i := by
    rw [afterAttributes?, dif_neg]
    rw [htoken, Token.lit.injEq]
    exact hbracket
  -- A parenthesis two indices on would be a visible one behind the word.
  have hplain : ¬ (tokenAt tokens (i + 2) = .lit TokenId.leftParen ∧
      (tokenAt tokens (i + 1)).isLit = true) := by
    rintro ⟨hparen, hword⟩
    obtain ⟨-, hbehind⟩ := Stands.at_visible hname (hiddenAt_eq_zero_iff.mpr hword)
    rw [Int.add_assoc] at hbehind
    have htoken := hbehind.tokenAt_eq (hiddenAt_eq_zero_iff.mpr (by
      show (tokenAt tokens (i + 2)).isLit = true
      rw [hparen]
      rfl))
    have heq := htoken.symm.trans hparen
    rw [Token.lit.injEq] at heq
    exact headD_behind_word d ids heq
  unfold function?
  rw [hstart]
  dsimp only
  rw [if_neg hplain, ite_self]

/-- **The keyword of a declaration leads it.** -/
theorem lead_keyword {tokens : List Token} {last i : Int} {seen ids : List TokenId}
    (h : Stands tokens i seen
      (d.keyword :: (d.name.render ++ (d.tail ++ TokenId.semicolon :: ids))))
    (hzero : hiddenAt tokens i = 0) : Lead.of tokens last i = .token d.keyword := by
  obtain ⟨htoken, -⟩ := h.at_visible hzero
  have hsign : ∀ x : TokenId, x.isSign = true → d.keyword ≠ x := by
    rintro x hx rfl
    exact Bool.false_ne_true (d.isWord.symm.trans hx)
  have hquote : ¬ Token.lit d.keyword = .lit TokenId.quote := by
    rw [Token.lit.injEq]
    exact hsign _ rfl
  have hdirective : ¬ (Token.lit d.keyword).id.isDirective = true := by
    rw [Token.id, d.undirected]
    exact Bool.false_ne_true
  unfold Lead.of
  dsimp only
  rw [htoken, if_neg hquote, if_neg (not_not_intro d.unqualified), if_neg hdirective,
    function?_keyword h hzero (hsign _ rfl)]
  rfl

theorem At.spans {ids : List TokenId} (h : s.At ids) : s.Spans :=
  ⟨h.last_eq, h.stands.elim fun _ hi => hi.nonneg⟩

/-- The step to a declaration gives its keyword. -/
theorem At.next_keyword (h : s.At (d.render ++ rest)) :
    s.next = (⟨d.keyword, .default, true⟩,
      (s.skipHidden.pass (.token s.skipHidden.frame.cursor d.keyword)).give
        s.skipHidden.frame.cursor d.keyword) := by
  rw [d.render_append] at h
  obtain ⟨seen, hi⟩ := h.stands
  obtain ⟨hvisible, hzero, -⟩ := hi.to_visible
  obtain ⟨-, -, -, -, hlt⟩ := h.token
  rw [next, h.nextFrom_skipHidden]
  refine nextFrom_give h.skipHidden.spans .default hlt ?_
  rw [Tile.ofIndex, skipHidden_tokens, skipHidden_cursor, if_neg (by omega),
    lead_keyword hvisible hzero]
  rfl

/-- Where nothing is visible any more, there is no declaration. -/
theorem At.readObject_end (h : s.At []) (expected : List TokenId) :
    (s.readObject expected).1 = .invalid := by
  obtain ⟨seen, hi⟩ := h.stands
  have hend := hi.to_visible.1.at_end hi.to_visible.2.1
  have hnext : s.next.1.found = false := by
    rw [next, h.nextFrom_skipHidden,
      nextFrom_end h.skipHidden.spans .default (Int.le_of_eq hend.symm)]
  unfold readObject
  simp only [hnext, Bool.not_false, if_true]
  split
  · rfl
  · split <;> rfl

/-- **One declaration** in front of anything that starts with a word. -/
theorem At.readObject (h : s.At (d.render ++ rest)) {expected : List TokenId}
    (hexpected : d.keyword ∈ expected) (hrest : (rest.headD TokenId.eol).isSign = false) :
    (s.readObject expected).1 = .default ∧ (s.readObject expected).2.pieces.Show s.tokens d ∧
      (s.readObject expected).2.tokens = s.tokens ∧ (s.readObject expected).2.At rest := by
  have hat : s.At (d.keyword :: (d.name.render ++ (d.tail ++ TokenId.semicolon :: rest))) :=
    d.render_append rest ▸ h
  obtain ⟨seen, hi⟩ := hat.stands
  have hlength := hi.add_length_le
  have hnonneg := hi.nonneg
  have hlast := h.last_eq
  rw [List.length_cons, List.length_append, NameText.render, List.length_cons, List.length_append,
    List.length_cons] at hlength
  have hfits : ¬ s.frame.last ≤ indexAfter s.tokens.length s.frame.cursor := by
    rw [indexAfter_of_lt (by omega)]
    omega
  have hinside : s.inBounds = true := by
    have hlt : s.frame.cursor < s.tokens.length := by omega
    simp [inBounds, hnonneg, hlt]
  have hnext := h.next_keyword
  -- The pieces are read behind the keyword, from a slicer that has none.
  obtain ⟨seen', -, -, hname, -⟩ := hat.token
  generalize hgiven : (s.skipHidden.pass (.token s.skipHidden.frame.cursor d.keyword)).give
    s.skipHidden.frame.cursor d.keyword = given at hnext
  have htokens : (given.setPieces .empty).tokens = s.tokens := by
    rw [← hgiven]
    rfl
  have hgiven_at : (given.setPieces .empty).At
      (d.name.render ++ (d.tail ++ TokenId.semicolon :: rest)) := by
    rw [← hgiven]
    exact ⟨h.last_eq, _, hname⟩
  have hallowed : (given.setPieces .empty).expects d.keyword expected
      = (true, given.setPieces .empty) :=
    if_pos (List.contains_iff_mem.mpr hexpected)
  have hread : s.readObject expected = (.default, (given.setPieces .empty).objectPieces) := by
    unfold Slicer.readObject
    rw [if_neg hfits, hinside, hnext]
    simp [hallowed]
  obtain ⟨i, seen'', pieces, heq, hshow, hi⟩ := hgiven_at.objectPieces hrest
  rw [hread, heq]
  exact ⟨rfl, htokens ▸ hshow, htokens, ⟨hgiven_at.last_eq, seen'', hi⟩⟩

/-! ## 5. Declarations one by one -/

/-- The slicer after reading some objects. -/
def afterObjects (s : Slicer) (expected : List TokenId) : Nat → Slicer
  | 0 => s
  | n + 1 => ((s.afterObjects expected n).readObject expected).2

/-- After some objects of a text that shows declarations, the others are in front of the cursor. -/
theorem afterObjects_at {decls : List Declaration} {expected : List TokenId}
    (h : s.At (decls.flatMap Declaration.render))
    (hexpected : ∀ d ∈ decls, d.keyword ∈ expected) (n : Nat) (hn : n ≤ decls.length) :
    (s.afterObjects expected n).tokens = s.tokens ∧
      (s.afterObjects expected n).At ((decls.drop n).flatMap Declaration.render) := by
  induction n with
  | zero => exact ⟨rfl, h⟩
  | succ n ih =>
    obtain ⟨htokens, hat⟩ := ih (by omega)
    rw [List.drop_eq_getElem_cons hn, List.flatMap_cons] at hat
    obtain ⟨-, -, hkept, hbehind⟩ := hat.readObject (hexpected _ (List.getElem_mem hn))
      (Declaration.headD_flatMap_render _)
    exact ⟨hkept.trans htokens, hbehind⟩

end Slicer

/-- **Declarations are read one by one.**  In a text that shows a list of declarations, and hides
anything between their tokens, the reading of an object gives the parts of one declaration after the
other, and nothing after the last one. -/
theorem readObject_declarations (tokens : List Token) (table : SpellingTable)
    (expected : List TokenId) (decls : List Declaration) (hmarked : WellMarked tokens)
    (hvisible : visible tokens = decls.flatMap Declaration.render)
    (hexpected : ∀ d ∈ decls, d.keyword ∈ expected) :
    (∀ (n : Nat) (hn : n < decls.length),
      let read := ((Slicer.ofTokens tokens table).afterObjects expected n).readObject expected
      read.1 = .default ∧ read.2.pieces.Show tokens decls[n]) ∧
    (((Slicer.ofTokens tokens table).afterObjects expected decls.length).readObject expected).1
      = .invalid := by
  have hat : (Slicer.ofTokens tokens table).At (decls.flatMap Declaration.render) :=
    ⟨rfl, [], hvisible ▸ hmarked.stands⟩
  constructor
  · intro n hn read
    obtain ⟨htokens, hn_at⟩ := Slicer.afterObjects_at hat hexpected n (Nat.le_of_lt hn)
    rw [List.drop_eq_getElem_cons hn, List.flatMap_cons] at hn_at
    obtain ⟨hstorage, hpieces, -⟩ := hn_at.readObject (hexpected _ (List.getElem_mem hn))
      (Declaration.headD_flatMap_render _)
    rw [htokens] at hpieces
    exact ⟨hstorage, hpieces⟩
  · obtain ⟨-, hend⟩ := Slicer.afterObjects_at hat hexpected decls.length (Nat.le_refl _)
    rw [List.drop_length] at hend
    exact Slicer.At.readObject_end hend expected

/-- A declaration with all its parts, one of them with a quoted closer. -/
def texture : Declaration where
  keyword := 64
  isWord := by decide
  unqualified := by decide
  undirected := by decide
  name := ⟨1024, by decide, some ⟨.square, [1025], by decide, by decide⟩⟩
  square := by
    intro g hg
    cases hg
    rfl
  assign := some ⟨1026, by decide, some ⟨.round, [1027], by decide, by decide⟩⟩
  annotations := some ⟨[TokenId.quote, TokenId.greater, TokenId.quote], by decide,
    @Grouped.quoted _ _ true [TokenId.greater] [] rfl (by decide) .nil⟩
  initial := .valueData ⟨[1028], by decide, .other (by decide) (by decide) .nil⟩
    ⟨[1029], by decide, .other (by decide) (by decide) (by decide) .nil⟩

/-- A declaration with nothing but a name, in front of the next one. -/
def scalar : Declaration where
  keyword := 71
  isWord := by decide
  unqualified := by decide
  undirected := by decide
  name := ⟨1030, by decide, none⟩
  square := by
    intro g hg
    cases hg
  assign := none
  annotations := none
  initial := .absent

/-- Some tokens with a hidden semicolon in front of each. -/
def behindSemicolons (ids : List TokenId) : List Token :=
  ids.flatMap fun id => [.skipOne, .lit TokenId.semicolon, .lit id]

theorem behindSemicolons_shows (ids : List TokenId) :
    WellMarked (behindSemicolons ids) ∧ visible (behindSemicolons ids) = ids := by
  induction ids with
  | nil => exact ⟨.nil, by rw [behindSemicolons, List.flatMap_nil, visible]⟩
  | cons id ids ih =>
    obtain ⟨hmarked, hvisible⟩ := ih
    refine ⟨.one _ (.lit id hmarked), ?_⟩
    have hone := visible_hide_append (.lit TokenId.semicolon .nil) (.lit id :: behindSemicolons ids)
    rw [visible, hvisible] at hone
    exact hone

/-- Three declarations with hidden semicolons between all their tokens. -/
theorem readObject_declarations_texture :
    let decls := [texture, scalar, texture]
    let tokens := behindSemicolons (decls.flatMap Declaration.render)
    let s := Slicer.ofTokens tokens ⟨[]⟩
    WellMarked tokens ∧ (s.readObject [64, 71]).1 = .default ∧
      ((s.afterObjects [64, 71] 1).readObject [64, 71]).2.pieces.Show tokens scalar ∧
      ((s.afterObjects [64, 71] 2).readObject [64, 71]).2.pieces.Show tokens texture ∧
      ((s.afterObjects [64, 71] 3).readObject [64, 71]).1 = .invalid := by
  obtain ⟨hmarked, hvisible⟩ :=
    behindSemicolons_shows ([texture, scalar, texture].flatMap Declaration.render)
  obtain ⟨hread, hend⟩ := readObject_declarations _ ⟨[]⟩ [64, 71] [texture, scalar, texture] hmarked
    hvisible (by
      intro d hd
      simp only [List.mem_cons, List.not_mem_nil, or_false] at hd
      rcases hd with rfl | rfl | rfl <;> decide)
  exact ⟨hmarked, (hread 0 (by decide)).1, (hread 1 (by decide)).2, (hread 2 (by decide)).2, hend⟩

end EffectScript
