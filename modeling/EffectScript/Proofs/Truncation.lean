import Mathlib
import EffectScript.Proofs.StoredForm

/-!
# Reading data that nobody vouches for

The counts and places in the header of a stored form come with the data, so anything may stand
there.  Reading compares them with the length of the data before it uses them.  To say that this is
enough there is a second reader, `Bin.guardedDecode`, which takes every word and every stretch of
bytes by a read that fails outside the data, and which may go through the spellings a limited number
of rounds; it never fails, and gives what `Bin.decode` gives.

The header tells where the data end.  So a stored form that was cut off anywhere is noticed, and
what follows a whole one is not looked at.

Main statement: `decode_keeps_inside`.
-/

namespace EffectScript

/-! ## 1. Reads that can fail -/

/-- The bytes from `start` up to `stop`, if the data reach that far. -/
def Bytes.slice? (data : Bytes) (start stop : Nat) : Option Bytes :=
  if start ≤ stop ∧ stop ≤ data.length then some ((data.take stop).drop start) else none

theorem Bytes.slice?_eq {data : Bytes} {start stop : Nat} (h : start ≤ stop)
    (hstop : stop ≤ data.length) : data.slice? start stop = some ((data.take stop).drop start) := by
  simp [slice?, h, hstop]

namespace ByteOrder

variable (order : ByteOrder) {offset : Nat} {data : Bytes}

/-- The 32-bit word at an offset, if the data reach that far. -/
def read32? (offset : Nat) (data : Bytes) : Option UInt32 :=
  (data.slice? offset (offset + 4)).map fun bytes => word32 (order.arrange bytes)

/-- The 16-bit word at an offset, if the data reach that far. -/
def read16? (offset : Nat) (data : Bytes) : Option UInt16 :=
  (data.slice? offset (offset + 2)).map fun bytes =>
    (word32 (order.arrange bytes ++ [0, 0])).toUInt16

theorem read32?_eq (h : offset + 4 ≤ data.length) :
    order.read32? offset data = some (order.get32 offset data) := by
  simp [read32?, get32, Bytes.slice?_eq (Nat.le_add_right offset 4) h, List.drop_take]

theorem read16?_eq (h : offset + 2 ≤ data.length) :
    order.read16? offset data = some (order.get16 offset data) := by
  simp [read16?, get16, Bytes.slice?_eq (Nat.le_add_right offset 2) h, List.drop_take]

/-- A word inside the data is the same whatever follows them. -/
theorem get32_append (h : offset + 4 ≤ data.length) (rest : Bytes) :
    order.get32 offset (data ++ rest) = order.get32 offset data := by
  rw [get32, get32, List.drop_append_of_le_length (by omega), List.take_append_of_le_length]
  simp only [List.length_drop]
  omega

theorem get16_append (h : offset + 2 ≤ data.length) (rest : Bytes) :
    order.get16 offset (data ++ rest) = order.get16 offset data := by
  rw [get16, get16, List.drop_append_of_le_length (by omega), List.take_append_of_le_length]
  simp only [List.length_drop]
  omega

end ByteOrder

/-! ## 2. The guarded reader -/

namespace Bin

open ByteOrder

/-- The table of some stored spellings, after those of `table`; nothing if a read goes outside the
data, or if the rounds do not suffice, one for each spelling. -/
def guardedStrings (order : ByteOrder) (rounds : Nat) (data : Bytes) (table : SpellingTable) :
    Option (Except Cause SpellingTable) :=
  if data = [] then some (.ok table)
  else if data.length < 5 then some (.error (.corruptBin .truncatedStrings))
  else
    match rounds with
    | 0 => none
    | rounds + 1 => do
      let id ← order.read32? 0 data
      let text ← data.slice? 4 data.length
      match text.findIdx? (· == 0) with
      | none => some (.error (.corruptBin .unterminatedString))
      | some size =>
        let spelling ← text.slice? 0 size
        match table.insert id spelling with
        | .error c => some (.error c)
        | .ok table =>
          let rest ← text.slice? (size + 1) text.length
          guardedStrings order rounds rest table

/-- The bin called `name` with the given stored form, or the cause that it is none; nothing if a
read goes outside the data. -/
def guardedBody (name data : Bytes) (order : ByteOrder) : Option (Except Cause Bin) := do
  let high ← order.read16? 4 data
  let low ← order.read16? 6 data
  if high != versionHigh || low != versionLow then some (.error (.binVersion high low))
  else
    let nameChecksum ← order.read32? 8 data
    let sourceChecksum ← order.read32? 12 data
    let count ← order.read32? 16 data
    let stringsAt ← order.read32? 20 data
    let stop ← order.read32? 24 data
    if stringsAt.toNat != headerSize + 4 * count.toNat || data.length < stop.toNat ||
        stop.toNat < stringsAt.toNat then
      some (.error (.corruptBin .badOffsets))
    else
      let ids ← (List.range count.toNat).mapM fun i => order.read32? (headerSize + 4 * i) data
      let strings ← data.slice? stringsAt.toNat stop.toNat
      let table ← guardedStrings order (strings.length / 5) strings .empty
      some (table.map fun table => ⟨name, nameChecksum, sourceChecksum, table, ids.map .lit⟩)

/-- The bin called `name` with the given stored form, in either byte order; nothing if a read goes
outside the data. -/
def guardedDecode (name data : Bytes) : Option (Except Error Bin) := do
  let result ←
    if data.length < headerSize then some (.error .notBin)
    else do
      if (← little.read32? 0 data) = signature then guardedBody name data little
      else if (← big.read32? 0 data) = signature then guardedBody name data big
      else some (.error .notBin)
  some (Error.atPlace (.named name) (Error.raise result))

/-- A spelling that ends is found up to its end. -/
theorem findIdx?_zero (text : Bytes) :
    text.findIdx? (· == 0)
      = if text.dropWhile (· != 0) = [] then none else some (text.takeWhile (· != 0)).length := by
  induction text with
  | nil => rfl
  | cons c rest ih =>
    rw [List.findIdx?_cons, ih]
    by_cases hc : c = 0
    · simp [hc]
    · simp only [hc, beq_iff_eq, if_false, List.dropWhile_cons, List.takeWhile_cons,
        bne_iff_ne, ne_eq, not_false_eq_true, if_true]
      split <;> simp

/-- A round over a spelling that ends reads inside the data. -/
theorem guardedStrings_entry (order : ByteOrder) (rounds : Nat) {data : Bytes}
    (table : SpellingTable)
    (hlong : 5 ≤ data.length) (hend : (data.drop 4).dropWhile (· != 0) ≠ []) :
    let text := data.drop 4
    let spelling := text.takeWhile (· != 0)
    (∀ c, table.insert (order.get32 0 data) spelling = .error c →
      guardedStrings order (rounds + 1) data table = some (.error c)) ∧
    ∀ table', table.insert (order.get32 0 data) spelling = .ok table' →
      guardedStrings order (rounds + 1) data table
        = guardedStrings order rounds (text.drop (spelling.length + 1)) table' := by
  intro text spelling
  have hne : data ≠ [] := List.ne_nil_of_length_pos (by omega)
  have hid : order.read32? 0 data = some (order.get32 0 data) := order.read32?_eq (by omega)
  have htext : data.slice? 4 data.length = some text := by
    rw [Bytes.slice?_eq (by omega) (Nat.le_refl _), List.take_length]
  have hsize : text.findIdx? (· == 0) = some spelling.length := by
    rw [findIdx?_zero, if_neg hend]
  -- The zero byte itself is inside the data, too.
  have hinside : spelling.length + 1 ≤ text.length := by
    have hboth : spelling.length + (text.dropWhile (· != 0)).length = text.length := by
      rw [← List.length_append, List.takeWhile_append_dropWhile]
    have hpos : 0 < (text.dropWhile (· != 0)).length := List.length_pos_of_ne_nil hend
    omega
  have hspelling : Bytes.slice? text 0 spelling.length = some spelling := by
    rw [Bytes.slice?_eq (Nat.zero_le _) (by omega), List.drop_zero]
    exact congrArg some (List.prefix_iff_eq_take.mp (List.takeWhile_prefix _)).symm
  have hrest : Bytes.slice? text (spelling.length + 1) text.length
      = some (text.drop (spelling.length + 1)) := by
    rw [Bytes.slice?_eq hinside (Nat.le_refl _), List.take_length]
  have hshort : ¬data.length < 5 := by omega
  constructor
  · intro c hinsert
    simp [guardedStrings, hne, hshort, hid, htext, hsize, hspelling, hinsert]
  · intro table' hinsert
    simp [guardedStrings, hne, hshort, hid, htext, hsize, hspelling, hinsert, hrest]

/-- **Reading spellings stays inside the data**, and five bytes at least are used up in each
round. -/
theorem guardedStrings_eq (order : ByteOrder) (data : Bytes) (table : SpellingTable) :
    ∀ rounds, data.length < 5 * (rounds + 1) →
      guardedStrings order rounds data table = some (decodeStrings order data table) := by
  fun_induction decodeStrings order data table with
  | case1 table =>
    intro rounds _
    unfold guardedStrings
    rfl
  | case2 data table hne hshort =>
    intro rounds _
    unfold guardedStrings
    rw [if_neg hne, if_pos hshort]
  | case3 data table hne hlong text hend =>
    intro rounds hrounds
    obtain ⟨rounds, rfl⟩ := Nat.exists_eq_add_one_of_ne_zero (by omega : rounds ≠ 0)
    have hid : order.read32? 0 data = some (order.get32 0 data) := order.read32?_eq (by omega)
    have htext : data.slice? 4 data.length = some text := by
      rw [Bytes.slice?_eq (by omega) (Nat.le_refl _), List.take_length]
    have hnone : text.findIdx? (· == 0) = none := by
      rw [findIdx?_zero, if_pos hend]
    simp [guardedStrings, hne, hlong, hid, htext, hnone]
  | case4 data table hne hlong text c rest hend spelling cause hinsert =>
    intro rounds hrounds
    obtain ⟨rounds, rfl⟩ := Nat.exists_eq_add_one_of_ne_zero (by omega : rounds ≠ 0)
    obtain ⟨hrefused, -⟩ :=
      guardedStrings_entry order rounds table (Nat.le_of_not_lt hlong) (by simp [text, hend])
    exact hrefused cause hinsert
  | case5 data table hne hlong text c rest hend spelling table' hinsert ih =>
    intro rounds hrounds
    obtain ⟨rounds, rfl⟩ := Nat.exists_eq_add_one_of_ne_zero (by omega : rounds ≠ 0)
    obtain ⟨-, hnext⟩ :=
      guardedStrings_entry order rounds table (Nat.le_of_not_lt hlong) (by simp [text, hend])
    rw [hnext table' hinsert]
    apply ih
    simp only [text, List.length_drop]
    omega

theorem mapM_eq_some {α β : Type} {f : α → Option β} {g : α → β} {xs : List α}
    (h : ∀ x ∈ xs, f x = some (g x)) : xs.mapM f = some (xs.map g) := by
  induction xs with
  | nil => rfl
  | cons x xs ih =>
    obtain ⟨hx, hxs⟩ := List.forall_mem_cons.mp h
    simp [List.mapM_cons, hx, ih hxs]

theorem guardedBody_eq (name : Bytes) {data : Bytes} (order : ByteOrder)
    (hlong : headerSize ≤ data.length) :
    guardedBody name data order = some (decodeBody name data order) := by
  have hheader : headerSize = 28 := rfl
  have hword : ∀ offset, offset + 4 ≤ headerSize →
      order.read32? offset data = some (order.get32 offset data) :=
    fun offset h => order.read32?_eq (by omega)
  have hhalf : ∀ offset, offset + 2 ≤ headerSize →
      order.read16? offset data = some (order.get16 offset data) :=
    fun offset h => order.read16?_eq (by omega)
  unfold guardedBody decodeBody
  simp only [hhalf 4 (by decide), hhalf 6 (by decide), hword 8 (by decide), hword 12 (by decide),
    hword 16 (by decide), hword 20 (by decide), hword 24 (by decide), Option.bind_eq_bind,
      Option.bind_some]
  split
  · rfl
  · split
    · rfl
    · rename_i hoffsets
      simp only [Bool.or_eq_true, bne_iff_ne, decide_eq_true_eq, not_or, ne_eq, Decidable.not_not,
        Nat.not_lt] at hoffsets
      obtain ⟨⟨hstart, hstop⟩, horder⟩ := hoffsets
      -- The ids stand before the spellings, and these end inside the data.
      have hids : (List.range (order.get32 16 data).toNat).mapM
            (fun i => order.read32? (headerSize + 4 * i) data)
          = some ((List.range (order.get32 16 data).toNat).map
            fun i => order.get32 (headerSize + 4 * i) data) := by
        refine mapM_eq_some fun i hi => order.read32?_eq ?_
        have hlt := List.mem_range.mp hi
        omega
      rw [hids, Bytes.slice?_eq horder hstop]
      simp only [Option.bind_some]
      rw [guardedStrings_eq order _ _ _ (by omega)]
      simp only [Option.bind_some, List.map_map, Function.comp_def]
      split <;> simp_all [Except.map]

/-- **Reading stays inside the data, whatever they are.** -/
theorem guardedDecode_eq (name data : Bytes) :
    guardedDecode name data = some (decode name data) := by
  unfold guardedDecode decode orderOf?
  by_cases hshort : data.length < headerSize
  · simp [hshort]
  · have hlong : headerSize ≤ data.length := Nat.le_of_not_lt hshort
    have hfirst : ∀ order : ByteOrder, order.read32? 0 data = some (order.get32 0 data) :=
      fun order => order.read32?_eq (Nat.le_trans (by decide) hlong)
    simp only [hshort, if_false, hfirst, Option.bind_eq_bind, Option.bind_some,
      guardedBody_eq name _ hlong]
    split
    · simp
    · split <;> simp

/-! ## 3. Data that go on, and data that break off -/

theorem decodeBody_append (name : Bytes) {data : Bytes} (order : ByteOrder)
    (hlong : headerSize ≤ data.length)
    (hstop : (order.get32 24 data).toNat ≤ data.length) (rest : Bytes) :
    decodeBody name (data ++ rest) order = decodeBody name data order := by
  have hheader : headerSize = 28 := rfl
  have hword : ∀ offset, offset + 4 ≤ headerSize →
      order.get32 offset (data ++ rest) = order.get32 offset data :=
    fun offset h => order.get32_append (by omega) rest
  have hhalf : ∀ offset, offset + 2 ≤ headerSize →
      order.get16 offset (data ++ rest) = order.get16 offset data :=
    fun offset h => order.get16_append (by omega) rest
  have hends : (data ++ rest).length < (order.get32 24 data).toNat ↔
      data.length < (order.get32 24 data).toNat := by
    rw [List.length_append]
    omega
  unfold decodeBody
  simp only [hhalf 4 (by decide), hhalf 6 (by decide), hword 8 (by decide), hword 12 (by decide),
    hword 16 (by decide), hword 20 (by decide), hword 24 (by decide), hends,
    List.take_append_of_le_length hstop]
  split
  · rfl
  · split
    · rfl
    · rename_i hoffsets
      simp only [Bool.or_eq_true, bne_iff_ne, decide_eq_true_eq, not_or, ne_eq, Decidable.not_not,
        Nat.not_lt] at hoffsets
      have hids : (List.range (order.get32 16 data).toNat).map
            (fun i => Token.lit (order.get32 (headerSize + 4 * i) (data ++ rest)))
          = (List.range (order.get32 16 data).toNat).map
            fun i => Token.lit (order.get32 (headerSize + 4 * i) data) := by
        refine List.map_congr_left fun i hi => ?_
        have hlt := List.mem_range.mp hi
        rw [order.get32_append (by omega)]
      rw [hids]

/-- **What follows the place at which the data end is not looked at.** -/
theorem decode_append (name : Bytes) {data : Bytes} (hlong : headerSize ≤ data.length)
    (hstop : ∀ order, orderOf? data = some order → (order.get32 24 data).toNat ≤ data.length)
    (rest : Bytes) : decode name (data ++ rest) = decode name data := by
  have hlong' : headerSize ≤ (data ++ rest).length := by
    rw [List.length_append]
    omega
  have hfirst : ∀ order : ByteOrder, order.get32 0 (data ++ rest) = order.get32 0 data :=
    fun order => order.get32_append (Nat.le_trans (by decide) hlong) rest
  have horder : orderOf? (data ++ rest) = orderOf? data := by simp only [orderOf?, hfirst]
  unfold decode
  simp only [if_neg (Nat.not_lt.mpr hlong), if_neg (Nat.not_lt.mpr hlong'), horder]
  cases hdata : orderOf? data with
  | none => rfl
  | some order => simp only [decodeBody_append name order hlong (hstop order hdata)]

/-- What can be stored is stored as a form of its ids. -/
theorem exists_form_of_encode {order : ByteOrder} {b : Bin} {data : Bytes}
    (h : b.encode order = .ok data) : ∃ ids, data = b.form order ids := by
  cases hids : storableIds 0 b.tokens with
  | error c =>
    simp only [encode, hids] at h
    cases h
  | ok ids =>
    rw [encode_eq_form order hids] at h
    exact ⟨ids, (Except.ok.inj h).symm⟩

/-- **A stored form that breaks off is noticed**: the header is cut, or it says where the data would
have to end. -/
theorem decode_cut (name : Bytes) (order : ByteOrder) {b : Bin} {ids : List TokenId} {data : Bytes}
    (hsize : (b.form order ids).length < 2 ^ 32) (hcut : data <+: b.form order ids)
    (hne : data ≠ b.form order ids) :
    decode name data = .error ((Error.ofCause
      (if data.length < headerSize then .notBin else .corruptBin .badOffsets)).within
        (.named name)) := by
  by_cases hshort : data.length < headerSize
  · simp only [decode, if_pos hshort]
    rfl
  · have hlength := length_form order b ids
    have hless : data.length < (b.form order ids).length :=
      Nat.lt_of_le_of_ne hcut.length_le fun heq => hne (hcut.eq_of_length heq)
    -- The whole header is there.
    have hwhole : b.header order ids.length (encodeStrings order b.table).length <+: data := by
      refine List.prefix_of_prefix_length_le (List.prefix_append _ _) hcut ?_
      rw [length_header]
      omega
    obtain ⟨rest, rfl⟩ := hwhole
    obtain ⟨-, hhigh, hlow, -⟩ :=
      header_fields order b ids.length (encodeStrings order b.table).length rest
    obtain ⟨-, hstart, hstop⟩ := header_offsets order b (hlength ▸ hsize) rest
    have hbody : ∀ name,
        decodeBody name (b.header order ids.length (encodeStrings order b.table).length ++ rest)
          order = .error (.corruptBin .badOffsets) := by
      intro name
      unfold decodeBody
      simp only [hhigh, hlow, hstop]
      rw [if_neg (by simp), if_pos]
      simp only [Bool.or_eq_true, decide_eq_true_eq]
      omega
    simp only [decode, if_neg hshort, orderOf?_header, hbody]
    rfl

end Bin

/-- **Reading stays inside the data and notices every cut.**  A reader whose every read fails
outside the data, and which goes through the spellings in no more rounds than there are fives of
bytes, never fails and gives the same on all data.  What is accepted has as many tokens as the
header says, all of them literal and all inside the data, and a table in order whose spellings hold
no zero byte.  The stored form of a bin, in either byte order and shorter than `2 ^ 32` bytes, is
refused if it is cut off anywhere, as no bin if the header is cut and as corrupt otherwise; whatever
is put behind it makes no difference. -/
theorem decode_keeps_inside :
    (∀ name data, Bin.guardedDecode name data = some (Bin.decode name data)) ∧
    (∀ name data b, Bin.decode name data = .ok b → ∃ order, Bin.orderOf? data = some order ∧
      b.tokens.length = (order.get32 16 data).toNat ∧
      Bin.headerSize + 4 * (order.get32 16 data).toNat ≤ data.length ∧ b.Storable) ∧
    ∀ order b stored, Bin.encode order b = .ok stored → stored.length < 2 ^ 32 → ∀ name,
      (∀ data, data <+: stored → data ≠ stored → Bin.decode name data = .error ((Error.ofCause
        (if data.length < Bin.headerSize then .notBin else .corruptBin .badOffsets)).within
          (.named name))) ∧
      ∀ rest, Bin.decode name (stored ++ rest) = Bin.decode name stored := by
  refine ⟨Bin.guardedDecode_eq, ?_, ?_⟩
  · intro name data b h
    obtain ⟨-, hstorable, -⟩ := Bin.storable_of_decode h
    obtain ⟨order, table, horder, -, hstart, hstop, hinside, -, rfl⟩ := Bin.decode_eq_ok h
    exact ⟨order, horder, by simp, by omega, hstorable⟩
  · intro order b stored hencode hsize name
    obtain ⟨ids, rfl⟩ := Bin.exists_form_of_encode hencode
    have hlength := Bin.length_form order b ids
    refine ⟨fun data hcut hne => Bin.decode_cut name order hsize hcut hne, fun rest => ?_⟩
    refine Bin.decode_append name (by omega) (fun order' horder' => ?_) rest
    obtain rfl : order = order' := by
      rw [Bin.form, Bin.orderOf?_header] at horder'
      exact Option.some.inj horder'
    obtain ⟨-, -, hstop⟩ := Bin.header_offsets order b (hlength ▸ hsize)
      (ids.flatMap order.put32 ++ Bin.encodeStrings order b.table)
    rw [← Bin.form] at hstop
    omega

/-- A bin of two tokens and one spelling: cut inside the header, cut behind it, and with three bytes
more. -/
theorem decode_keeps_inside_cut :
    let b : Bin := ⟨[0x61], 7, 9, ⟨[⟨0x400, [0x62]⟩]⟩, [.lit 0x400, .lit TokenId.eol]⟩
    let header : Bytes := [0x42, 0x53, 0x58, 0x46, 0, 1, 0, 4, 0, 0, 0, 7, 0, 0, 0, 9, 0, 0, 0, 2,
      0, 0, 0, 36, 0, 0, 0, 42]
    let stored : Bytes := header ++ [0, 0, 4, 0, 0, 0, 0, 0] ++ [0, 0, 4, 0, 0x62, 0]
    b.encode .big = .ok stored ∧ Bin.guardedDecode [0x61] stored = some (.ok b) ∧ b.Storable ∧
      Bin.decode [0x63] (header.take 10) = .error ⟨[.named [0x63]], .notBin⟩ ∧
      Bin.decode [0x63] header = .error ⟨[.named [0x63]], .corruptBin .badOffsets⟩ ∧
      Bin.decode [0x61] (stored ++ [1, 2, 3]) = .ok b := by
  intro b header stored
  obtain ⟨hguarded, haccepted, hstored⟩ := decode_keeps_inside
  have hencode : b.encode .big = .ok stored := by cbv
  have hdecode : Bin.decode [0x61] stored = .ok b := by cbv
  obtain ⟨-, -, -, -, hstorable⟩ := haccepted _ _ b hdecode
  have hsize : stored.length < 2 ^ 32 := by decide
  obtain ⟨-, hlonger⟩ := hstored .big b stored hencode hsize [0x61]
  obtain ⟨hcut, -⟩ := hstored .big b stored hencode hsize [0x63]
  refine ⟨hencode, (hguarded _ _).trans (congrArg some hdecode), hstorable, ?_, ?_,
    (hlonger _).trans hdecode⟩
  · exact hcut (header.take 10) (by decide) (by decide)
  · exact hcut header (by decide) (by decide)

end EffectScript
