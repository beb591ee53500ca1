import Mathlib
import EffectScript.Proofs.Wording

/-!
# The stored form of a bin

A stored bin is a header, the token ids and the spellings, all words in one byte order.  What is
written in either order is read back as it was: the signature tells the orders apart, the header
says where the ids and the spellings are, and a spelling ends at its zero byte.

Reading puts the spellings in order and drops what is there twice, so it is the inverse of writing
only where the spellings are in order and hold no zero byte (`Bin.Storable`).  A bin that was read
from a source is so, and also one that was read from any stored form; the latter is moreover no
longer than what it was read from.

Main statement: `stored_form_roundTrip`.
-/

namespace EffectScript

/-! ## 1. Words as bytes -/

namespace ByteOrder

variable (order : ByteOrder)

@[simp] theorem arrange_arrange (bytes : Bytes) : order.arrange (order.arrange bytes) = bytes := by
  cases order <;> simp [arrange]

@[simp] theorem length_arrange (bytes : Bytes) : (order.arrange bytes).length = bytes.length := by
  cases order <;> simp [arrange]

@[simp] theorem length_put32 (w : UInt32) : (order.put32 w).length = 4 := by
  simp [put32]

@[simp] theorem length_put16 (w : UInt16) : (order.put16 w).length = 2 := by
  simp [put16]

/-- A word is put together from its bytes, bit by bit. -/
theorem word32_bytes (w : UInt32) :
    word32 [w.toUInt8, (w >>> 8).toUInt8, (w >>> 16).toUInt8, (w >>> 24).toUInt8] = w := by
  apply UInt32.eq_of_toBitVec_eq
  ext i hi
  simp only [word32, UInt32.toBitVec_or, UInt8.toBitVec_toUInt32, UInt32.toBitVec_toUInt8,
    UInt32.toBitVec_shiftLeft, UInt32.toBitVec_shiftRight, UInt32.toBitVec_ofNat,
    BitVec.ofNat_eq_ofNat, BitVec.reduceMod, BitVec.ushiftRight_eq', BitVec.toNat_ofNat,
    Nat.reducePow, Nat.reduceMod, BitVec.shiftLeft_eq', BitVec.getElem_or, BitVec.getElem_setWidth,
    BitVec.getLsbD_setWidth, BitVec.getElem_shiftLeft, BitVec.getLsbD_ushiftRight]
  grind

theorem word32_halfBytes (w : UInt16) :
    (word32 [w.toUInt8, (w >>> 8).toUInt8, 0, 0]).toUInt16 = w := by
  apply UInt16.eq_of_toBitVec_eq
  ext i hi
  simp only [word32, Nat.ofNat_pos, UInt8.toUInt32_ofNat, UInt32.zero_shiftLeft, UInt32.or_zero,
    UInt32.toUInt16_or, UInt8.toUInt16_toUInt32, UInt32.reduceLT, UInt32.toUInt16_shiftLeft,
    UInt32.toUInt16_ofNat, UInt16.toBitVec_or, UInt8.toBitVec_toUInt16, UInt16.toBitVec_toUInt8,
    UInt16.toBitVec_shiftLeft, UInt16.toBitVec_shiftRight, UInt16.toBitVec_ofNat,
    BitVec.ofNat_eq_ofNat, BitVec.reduceMod, BitVec.ushiftRight_eq', BitVec.toNat_ofNat,
    Nat.reducePow, Nat.reduceMod, BitVec.shiftLeft_eq', BitVec.getElem_or, BitVec.getElem_setWidth,
    BitVec.getLsbD_setWidth, BitVec.getElem_shiftLeft, BitVec.getLsbD_ushiftRight]
  grind

/-! The words at the start of some data, and those behind another word. -/

@[simp] theorem get32_put32 (w : UInt32) (rest : Bytes) :
    order.get32 0 (order.put32 w ++ rest) = w := by
  have htake : (order.put32 w ++ rest).take 4 = order.put32 w := by
    rw [← order.length_put32 w, List.take_left]
  rw [get32, List.drop_zero, htake, put32, arrange_arrange]
  exact word32_bytes w

@[simp] theorem get16_put16 (w : UInt16) (rest : Bytes) :
    order.get16 0 (order.put16 w ++ rest) = w := by
  have htake : (order.put16 w ++ rest).take 2 = order.put16 w := by
    rw [← order.length_put16 w, List.take_left]
  rw [get16, List.drop_zero, htake, put16, arrange_arrange]
  exact word32_halfBytes w

theorem drop_behind {before : Bytes} {size : Nat} (h : before.length = size) (offset : Nat)
    (rest : Bytes) : (before ++ rest).drop (offset + size) = rest.drop offset := by
  rw [← h, Nat.add_comm, List.drop_length_add_append]

@[simp] theorem get32_behind32 (offset : Nat) (w : UInt32) (rest : Bytes) :
    order.get32 (offset + 4) (order.put32 w ++ rest) = order.get32 offset rest := by
  rw [get32, get32, drop_behind (order.length_put32 w)]

@[simp] theorem get32_behind16 (offset : Nat) (w : UInt16) (rest : Bytes) :
    order.get32 (offset + 2) (order.put16 w ++ rest) = order.get32 offset rest := by
  rw [get32, get32, drop_behind (order.length_put16 w)]

@[simp] theorem get16_behind32 (offset : Nat) (w : UInt32) (rest : Bytes) :
    order.get16 (offset + 4) (order.put32 w ++ rest) = order.get16 offset rest := by
  rw [get16, get16, drop_behind (order.length_put32 w)]

@[simp] theorem get16_behind16 (offset : Nat) (w : UInt16) (rest : Bytes) :
    order.get16 (offset + 2) (order.put16 w ++ rest) = order.get16 offset rest := by
  rw [get16, get16, drop_behind (order.length_put16 w)]

/-- Words that are written one behind the other are read back by their places. -/
theorem map_get32_flatMap (ws : List UInt32) (rest : Bytes) :
    (List.range ws.length).map (fun i => order.get32 (4 * i) (ws.flatMap order.put32 ++ rest))
      = ws := by
  induction ws with
  | nil => rfl
  | cons w ws ih =>
    have hbehind : ∀ i,
        order.get32 (4 * (i + 1)) (order.put32 w ++ (ws.flatMap order.put32 ++ rest))
        = order.get32 (4 * i) (ws.flatMap order.put32 ++ rest) := by
      intro i
      exact order.get32_behind32 (4 * i) w _
    rw [List.length_cons, List.range_succ_eq_map, List.flatMap_cons, List.append_assoc,
      List.map_cons, List.map_map]
    simp only [Function.comp_def, Nat.succ_eq_add_one, hbehind, ih, Nat.mul_zero, get32_put32]

end ByteOrder

namespace Bin

open ByteOrder

/-! ## 2. Spellings -/

/-- The number of bytes in which an entry is stored. -/
def storedLength (e : SpellingEntry) : Nat := e.spelling.length + 5

theorem length_encodeStrings (order : ByteOrder) (table : SpellingTable) :
    (encodeStrings order table).length = (table.entries.map storedLength).sum := by
  have hentry : ∀ e : SpellingEntry,
      (order.put32 e.id ++ e.spelling ++ [0]).length = storedLength e := by
    intro e
    simp only [List.length_append, length_put32, List.length_singleton, storedLength]
    omega
  rw [encodeStrings, List.length_flatMap]
  simp only [hentry]

/-- An entry is read off the front of the spellings. -/
theorem decodeStrings_entry (order : ByteOrder) {e : SpellingEntry} (he : 0 ∉ e.spelling)
    {table table' : SpellingTable} (h : table.insert e.id e.spelling = .ok table') (rest : Bytes) :
    decodeStrings order (order.put32 e.id ++ e.spelling ++ [0] ++ rest) table
      = decodeStrings order rest table' := by
  have hassoc : order.put32 e.id ++ e.spelling ++ [0] ++ rest
      = order.put32 e.id ++ (e.spelling ++ 0 :: rest) := by simp
  have hne : ∀ c ∈ e.spelling, (c != 0) = true := by
    intro c hc
    rw [bne_iff_ne]
    rintro rfl
    exact he hc
  have htake : (e.spelling ++ 0 :: rest).takeWhile (· != 0) = e.spelling := by
    rw [List.takeWhile_append_of_pos hne]
    simp
  have hdrop : (e.spelling ++ 0 :: rest).dropWhile (· != 0) = 0 :: rest := by
    rw [List.dropWhile_append_of_pos hne]
    simp
  have hrest : (e.spelling ++ 0 :: rest).drop (e.spelling.length + 1) = rest := by
    rw [List.drop_length_add_append]
    rfl
  have htext : (order.put32 e.id ++ (e.spelling ++ 0 :: rest)).drop 4 = e.spelling ++ 0 :: rest :=
    drop_behind (order.length_put32 e.id) 0 _
  have hlong : ¬(order.put32 e.id ++ (e.spelling ++ 0 :: rest)).length < 5 := by
    simp only [List.length_append, length_put32, List.length_cons]
    omega
  rw [hassoc, decodeStrings, if_neg (by simp), if_neg hlong]
  simp only [htext, hdrop, htake, hrest, get32_put32, h]

/-- An entry behind all others is inserted as the last. -/
theorem insert_last {table : SpellingTable} {e : SpellingEntry}
    (h : (table.entries ++ [e]).Pairwise fun a b => a.id < b.id) :
    table.insert e.id e.spelling = .ok ⟨table.entries ++ [e]⟩ := by
  obtain ⟨hpairs, -, hlast⟩ := List.pairwise_append.mp h
  have hsorted : table.isSorted := (SpellingTable.ascending_iff _).mpr hpairs
  have hbefore : ∀ f ∈ table.entries, f.id < e.id := fun f hf => hlast f hf e List.mem_cons_self
  have hnone : table.find? e.id = none := by
    rw [SpellingTable.find?_eq hsorted, List.find?_eq_none]
    intro f hf hid
    exact UInt32.lt_irrefl _ (beq_iff_eq.mp hid ▸ hbefore f hf)
  have hplace : table.position e.id = table.entries.length := by
    apply Nat.le_antisymm
    · rw [SpellingTable.position_le_iff hsorted]
      simp
    · refine Nat.le_of_not_lt fun hlt => ?_
      have hle := (SpellingTable.position_le_iff hsorted e.id _).mp (Nat.le_refl _) _
        (List.getElem?_eq_getElem hlt)
      exact UInt32.not_lt.mpr hle (hbefore _ (List.getElem_mem hlt))
  simp only [SpellingTable.insert, hnone, hplace, List.take_length, List.drop_length]

/-- Stored entries are read back behind those that were read before. -/
theorem decodeStrings_flatMap (order : ByteOrder) {entries : List SpellingEntry}
    (hzero : ∀ e ∈ entries, 0 ∉ e.spelling) {table : SpellingTable}
    (h : (table.entries ++ entries).Pairwise fun a b => a.id < b.id) :
    decodeStrings order (entries.flatMap fun e => order.put32 e.id ++ e.spelling ++ [0]) table
      = .ok ⟨table.entries ++ entries⟩ := by
  induction entries generalizing table with
  | nil =>
    rw [List.flatMap_nil, decodeStrings, if_pos rfl, List.append_nil]
  | cons e entries ih =>
    obtain ⟨he, hmore⟩ := List.forall_mem_cons.mp hzero
    rw [← List.singleton_append, ← List.append_assoc] at h
    rw [List.flatMap_cons, decodeStrings_entry order he (insert_last (List.pairwise_append.mp h).1),
      ih hmore h, List.append_assoc, List.singleton_append]

/-- **Stored spellings are read back**, when they are in order and hold no zero byte. -/
theorem decodeStrings_encodeStrings (order : ByteOrder) {table : SpellingTable}
    (hsorted : table.isSorted) (hzero : ∀ e ∈ table.entries, 0 ∉ e.spelling) :
    decodeStrings order (encodeStrings order table) .empty = .ok table :=
  decodeStrings_flatMap order hzero ((SpellingTable.ascending_iff _).mp hsorted)

/-! ## 3. Bins that can be stored -/

/-- What the stored form can hold: literal tokens, and spellings in order that hold no zero byte. -/
structure Storable (b : Bin) : Prop where
  lits : ∀ t ∈ b.tokens, t.isLit
  isSorted : b.table.isSorted
  zeroFree : ∀ e ∈ b.table.entries, 0 ∉ e.spelling

theorem storableIds_eq {tokens : List Token} (h : ∀ t ∈ tokens, t.isLit) (index : Nat) :
    ∃ ids, storableIds index tokens = .ok ids ∧ tokens = ids.map .lit := by
  induction tokens generalizing index with
  | nil => exact ⟨[], rfl, rfl⟩
  | cons t rest ih =>
    obtain ⟨ht, hrest⟩ := List.forall_mem_cons.mp h
    obtain ⟨ids, hids, rfl⟩ := ih hrest (index + 1)
    cases t with
    | lit id => exact ⟨id :: ids, by rw [storableIds, hids], rfl⟩
    | skipOne => cases ht
    | skipOpen => cases ht
    | skipClose => cases ht

/-- The header of a bin with `count` tokens and with spellings that take `size` bytes. -/
def header (order : ByteOrder) (b : Bin) (count size : Nat) : Bytes :=
  order.put32 signature ++ (order.put16 versionHigh ++ (order.put16 versionLow ++
    (order.put32 b.nameChecksum ++ (order.put32 b.sourceChecksum ++
      (order.put32 (UInt32.ofNat count) ++ (order.put32 (UInt32.ofNat (headerSize + 4 * count)) ++
        order.put32 (UInt32.ofNat (headerSize + 4 * count) + UInt32.ofNat size)))))))

theorem length_header (order : ByteOrder) (b : Bin) (count size : Nat) :
    (b.header order count size).length = headerSize := by
  simp [header, headerSize]

/-- What the header says can be read off it. -/
theorem header_fields (order : ByteOrder) (b : Bin) (count size : Nat) (rest : Bytes) :
    let data := b.header order count size ++ rest
    order.get32 0 data = signature ∧
      order.get16 4 data = versionHigh ∧ order.get16 6 data = versionLow ∧
      order.get32 8 data = b.nameChecksum ∧ order.get32 12 data = b.sourceChecksum ∧
      order.get32 16 data = UInt32.ofNat count ∧
      order.get32 20 data = UInt32.ofNat (headerSize + 4 * count) ∧
      order.get32 24 data = UInt32.ofNat (headerSize + 4 * count) + UInt32.ofNat size := by
  simp [header]

/-- The counts and places of a bin that is short enough are in the header as they are. -/
theorem header_offsets (order : ByteOrder) (b : Bin) {count size : Nat}
    (hsize : headerSize + 4 * count + size < 2 ^ 32) (rest : Bytes) :
    let data := b.header order count size ++ rest
    (order.get32 16 data).toNat = count ∧ (order.get32 20 data).toNat = headerSize + 4 * count ∧
      (order.get32 24 data).toNat = headerSize + 4 * count + size := by
  intro data
  obtain ⟨-, -, -, -, -, hcount, hstart, hstop⟩ := header_fields order b count size rest
  have hwrap : ∀ n, n < 2 ^ 32 → (UInt32.ofNat n).toNat = n := by
    intro n hn
    rw [UInt32.toNat_ofNat', Nat.mod_eq_of_lt hn]
  refine ⟨?_, ?_, ?_⟩
  · rw [hcount, hwrap _ (by omega)]
  · rw [hstart, hwrap _ (by omega)]
  · rw [hstop, UInt32.toNat_add, hwrap _ (by omega), hwrap _ (by omega), Nat.mod_eq_of_lt hsize]

/-- The stored form of a bin, from its ids. -/
def form (order : ByteOrder) (b : Bin) (ids : List TokenId) : Bytes :=
  b.header order ids.length (encodeStrings order b.table).length ++
    (ids.flatMap order.put32 ++ encodeStrings order b.table)

theorem encode_eq_form (order : ByteOrder) {b : Bin} {ids : List TokenId}
    (h : storableIds 0 b.tokens = .ok ids) : b.encode order = .ok (b.form order ids) := by
  simp only [encode, h, form, header, List.append_assoc]

theorem length_flatMap_put32 (order : ByteOrder) (ids : List TokenId) :
    (ids.flatMap order.put32).length = 4 * ids.length := by
  simp [List.length_flatMap, Nat.mul_comm]

theorem length_form (order : ByteOrder) (b : Bin) (ids : List TokenId) :
    (b.form order ids).length
      = headerSize + 4 * ids.length + (encodeStrings order b.table).length := by
  rw [form, List.length_append, List.length_append, length_header, length_flatMap_put32,
    Nat.add_assoc]

/-- The signature tells the byte order. -/
theorem orderOf?_header (order : ByteOrder) (b : Bin) (count size : Nat) (rest : Bytes) :
    orderOf? (b.header order count size ++ rest) = some order := by
  have hsame : order.get32 0 (b.header order count size ++ rest) = signature :=
    (header_fields order b count size rest).1
  unfold orderOf?
  cases order with
  | little => rw [if_pos hsame]
  | big =>
    have hother : little.get32 0 (b.header big count size ++ rest) ≠ signature := by
      have htake : (b.header big count size ++ rest).take 4 = big.put32 signature := by
        rw [header, List.append_assoc]
        exact List.take_left' (big.length_put32 signature)
      rw [get32, List.drop_zero, htake]
      decide
    rw [if_neg hother, if_pos hsame]

/-- The tokens and the spellings are where the header says. -/
theorem decodeBody_form (order : ByteOrder) (name : Bytes) {b : Bin} {ids : List TokenId}
    (hsorted : b.table.isSorted) (hzero : ∀ e ∈ b.table.entries, 0 ∉ e.spelling)
    (hsize : (b.form order ids).length < 2 ^ 32) :
    decodeBody name (b.form order ids) order
      = .ok ⟨name, b.nameChecksum, b.sourceChecksum, b.table, ids.map .lit⟩ := by
  have hlength := length_form order b ids
  obtain ⟨-, hhigh, hlow, hname, hsource, -⟩ :=
    header_fields order b ids.length (encodeStrings order b.table).length
      (ids.flatMap order.put32 ++ encodeStrings order b.table)
  obtain ⟨hcount, hstart, hstop⟩ := header_offsets order b (hlength ▸ hsize)
    (ids.flatMap order.put32 ++ encodeStrings order b.table)
  rw [← form] at hhigh hlow hname hsource hcount hstart hstop
  have hstrings : (b.form order ids).drop (headerSize + 4 * ids.length)
      = encodeStrings order b.table := by
    rw [form, ← List.append_assoc]
    exact List.drop_left' (by rw [List.length_append, length_header, length_flatMap_put32])
  have htokens : (List.range ids.length).map
      (fun i => Token.lit (order.get32 (headerSize + 4 * i) (b.form order ids)))
        = ids.map .lit := by
    have hid : ∀ i, order.get32 (headerSize + 4 * i) (b.form order ids)
        = order.get32 (4 * i) (ids.flatMap order.put32 ++ encodeStrings order b.table) := by
      intro i
      rw [get32, get32, form, Nat.add_comm, drop_behind (length_header order b _ _)]
    rw [← order.map_get32_flatMap ids (encodeStrings order b.table), List.map_map]
    simp only [hid, order.map_get32_flatMap, Function.comp_def]
  unfold decodeBody
  simp only [hhigh, hlow, hname, hsource, hcount, hstart, hstop]
  rw [if_neg (by simp), if_neg (by simp [hlength]), ← hlength, List.take_length, hstrings,
    decodeStrings_encodeStrings order hsorted hzero]
  dsimp only
  rw [htokens]

/-- **What is stored is read back**, under any name. -/
theorem decode_encode (order : ByteOrder) {b : Bin} (h : b.Storable) :
    ∃ data, b.encode order = .ok data ∧
      data.length = headerSize + 4 * b.tokens.length + (encodeStrings order b.table).length ∧
      (data.length < 2 ^ 32 → ∀ name, decode name data = .ok { b with name := name }) := by
  obtain ⟨ids, hids, htokens⟩ := storableIds_eq h.lits 0
  refine ⟨b.form order ids, encode_eq_form order hids, ?_, fun hsize name => ?_⟩
  · rw [length_form, htokens, List.length_map]
  · have hlong : ¬(b.form order ids).length < headerSize := by
      rw [length_form]
      omega
    have horder : orderOf? (b.form order ids) = some order := orderOf?_header order b _ _ _
    simp only [decode, if_neg hlong, horder,
      decodeBody_form order name h.isSorted h.zeroFree hsize, ← htokens]
    rfl

/-! ## 4. What is read can be stored -/

/-- Inserting adds an entry of the spelling at most. -/
theorem insert_storable {table table' : SpellingTable} {id : TokenId} {spelling : Bytes}
    (h : table.insert id spelling = .ok table') (hspelling : 0 ∉ spelling)
    (hzero : ∀ e ∈ table.entries, 0 ∉ e.spelling) :
    (∀ e ∈ table'.entries, 0 ∉ e.spelling) ∧
      (table'.entries.map storedLength).sum
        ≤ (table.entries.map storedLength).sum + (spelling.length + 5) := by
  unfold SpellingTable.insert at h
  split at h
  · split at h
    · cases h
      exact ⟨hzero, Nat.le_add_right _ _⟩
    · cases h
  · cases h
    constructor
    · intro e he
      simp only [List.mem_append, List.mem_cons] at he
      rcases he with he | rfl | he
      · exact hzero e (List.mem_of_mem_take he)
      · exact hspelling
      · exact hzero e (List.mem_of_mem_drop he)
    · have hsplit := congrArg (fun entries => (entries.map storedLength).sum)
        (List.take_append_drop (table.position id) table.entries)
      simp only [List.map_append, List.map_cons, List.sum_append, List.sum_cons] at hsplit ⊢
      simp only [storedLength] at hsplit ⊢
      omega

/-- Reading spellings keeps them in order and free of zero bytes, and adds no more than it reads. -/
theorem decodeStrings_storable {order : ByteOrder} {data : Bytes} {table table' : SpellingTable}
    (h : decodeStrings order data table = .ok table') (hsorted : table.isSorted)
    (hzero : ∀ e ∈ table.entries, 0 ∉ e.spelling) :
    table'.isSorted ∧ (∀ e ∈ table'.entries, 0 ∉ e.spelling) ∧
      (table'.entries.map storedLength).sum
        ≤ (table.entries.map storedLength).sum + data.length := by
  fun_induction decodeStrings order data table with
  | case1 table =>
    cases h
    exact ⟨hsorted, hzero, Nat.le_add_right _ _⟩
  | case2 => cases h
  | case3 => cases h
  | case4 => cases h
  | case5 data table hne hlong text c rest htail spelling table₁ hinsert ih =>
    have hspelling : 0 ∉ spelling := by
      intro hmem
      simpa using List.all_eq_true.mp (List.all_takeWhile (p := (· != 0)) (l := text)) 0 hmem
    have hlength : spelling.length + (rest.length + 1) = text.length := by
      rw [← List.length_cons, ← htail, ← List.length_append, List.takeWhile_append_dropWhile]
    obtain ⟨hzero₁, hsize₁⟩ := insert_storable hinsert hspelling hzero
    obtain ⟨hsorted', hzero', hsize'⟩ := ih h (SpellingTable.isSorted_insert hsorted hinsert) hzero₁
    refine ⟨hsorted', hzero', ?_⟩
    simp only [text, List.length_drop] at hlength hsize'
    omega

/-- What some data are read as is what the header says: so many ids behind it, and the spellings
from there to a place inside the data. -/
theorem decode_eq_ok {name data : Bytes} {b : Bin} (h : decode name data = .ok b) :
    ∃ order table, orderOf? data = some order ∧ headerSize ≤ data.length ∧
      headerSize + 4 * (order.get32 16 data).toNat = (order.get32 20 data).toNat ∧
      (order.get32 20 data).toNat ≤ (order.get32 24 data).toNat ∧
      (order.get32 24 data).toNat ≤ data.length ∧
      decodeStrings order ((data.take (order.get32 24 data).toNat).drop (order.get32 20 data).toNat)
        .empty
        = .ok table ∧
      b = ⟨name, order.get32 8 data, order.get32 12 data, table,
        (List.range (order.get32 16 data).toNat).map fun i =>
          .lit (order.get32 (headerSize + 4 * i) data)⟩ := by
  unfold decode at h
  dsimp only at h
  split at h
  · cases h
  · rename_i hlong
    split at h
    · cases h
    · rename_i order horder
      cases hbody : decodeBody name data order with
      | error c =>
        rw [hbody] at h
        cases h
      | ok found =>
        rw [hbody] at h
        cases h
        unfold decodeBody at hbody
        dsimp only at hbody
        split at hbody
        · cases hbody
        · split at hbody
          · cases hbody
          · rename_i hoffsets
            simp only [Bool.or_eq_true, bne_iff_ne, decide_eq_true_eq, not_or, ne_eq,
              Decidable.not_not, Nat.not_lt] at hoffsets
            split at hbody
            · cases hbody
            · rename_i table hstrings
              cases hbody
              exact ⟨order, table, horder, Nat.le_of_not_lt hlong, hoffsets.1.1.symm, hoffsets.2,
                hoffsets.1.2, hstrings, rfl⟩

/-- **What is read can be stored**, and takes no more room than 32-bit offsets reach. -/
theorem storable_of_decode {name data : Bytes} {b : Bin} (h : decode name data = .ok b) :
    b.name = name ∧ b.Storable ∧ ∀ order,
      headerSize + 4 * b.tokens.length + (encodeStrings order b.table).length < 2 ^ 32 := by
  obtain ⟨order, table, -, -, hstart, hstop, -, hstrings, rfl⟩ := decode_eq_ok h
  obtain ⟨hsorted, hzero, hsize⟩ :=
    decodeStrings_storable hstrings rfl (by simp [SpellingTable.empty])
  refine ⟨rfl, ⟨by simp [Token.isLit], hsorted, hzero⟩, fun order' => ?_⟩
  have hlimit := (order.get32 24 data).toNat_lt
  simp only [SpellingTable.empty, List.map_nil, List.sum_nil, List.length_drop,
    List.length_take] at hsize
  simp only [length_encodeStrings, List.length_map, List.length_range]
  omega

/-- **A bin of a source can be stored.** -/
theorem storable_of_ofSource {name source : Bytes} {b : Bin} (h : ofSource name source = .ok b) :
    b.Storable := by
  refine ⟨isLit_of_ofSource h, isSorted_of_ofSource h, ?_⟩
  obtain ⟨script, hread, rfl⟩ := exists_script_of_ofSource h
  intro e he hzero
  cases Script.read_solid hread e he 0 hzero

end Bin

/-- **The stored form of bins goes round in either byte order.**  A bin of literal tokens, the
spellings of which are in order and hold no zero byte, can be stored, and what is stored is read
back as that bin if it is shorter than `2 ^ 32` bytes.  Every bin made from a source is such a bin.
Whatever some data are read as can be stored again, in either order, and is read back. -/
theorem stored_form_roundTrip (order : ByteOrder) :
    (∀ b : Bin, b.Storable → ∃ data, b.encode order = .ok data ∧
      (data.length < 2 ^ 32 → Bin.decode b.name data = .ok b)) ∧
    (∀ name source b, Bin.ofSource name source = .ok b → b.Storable) ∧
    ∀ name data b, Bin.decode name data = .ok b →
      ∃ data', b.encode order = .ok data' ∧ Bin.decode name data' = .ok b := by
  refine ⟨fun b hb => ?_, fun name source b h => Bin.storable_of_ofSource h,
    fun name data b h => ?_⟩
  · obtain ⟨data, hencode, -, hdecode⟩ := Bin.decode_encode order hb
    exact ⟨data, hencode, fun hsize => hdecode hsize b.name⟩
  · obtain ⟨rfl, hb, hsize⟩ := Bin.storable_of_decode h
    obtain ⟨data', hencode, hlength, hdecode⟩ := Bin.decode_encode order hb
    exact ⟨data', hencode, hdecode (hlength ▸ hsize order) b.name⟩

/-- A bin with an empty spelling and with ids at both ends of the words, the source `b`, and the
data of a bin whose spellings are out of order and twice there. -/
theorem stored_form_roundTrip_repeated :
    let b : Bin := ⟨[0x61], 7, 0x80000009, ⟨[⟨0x400, []⟩, ⟨0xFFFFFFFF, [0x62, 0x63]⟩]⟩,
      [.lit TokenId.define, .lit 0x400, .lit 0xFFFFFFFF, .lit TokenId.eol]⟩
    let data : Bytes :=
      ByteOrder.little.put32 Bin.signature ++ [1, 0, 4, 0, 7, 0, 0, 0, 9, 0, 0, 0x80] ++
      [4, 0, 0, 0, 44, 0, 0, 0, 61, 0, 0, 0] ++
      [2, 0, 0, 0, 0, 4, 0, 0, 0xFF, 0xFF, 0xFF, 0xFF, 0, 0, 0, 0] ++
      [0xFF, 0xFF, 0xFF, 0xFF, 0x62, 0x63, 0, 0, 4, 0, 0, 0, 0, 4, 0, 0, 0]
    b.Storable ∧
      (∃ stored, b.encode .big = .ok stored ∧ stored.length < 2 ^ 32 ∧
        Bin.decode [0x61] stored = .ok b) ∧
      (∃ c, Bin.ofSource [0x61] [0x62] = .ok c ∧ c.Storable) ∧
      Bin.decode [0x61] data = .ok b ∧
      ∃ stored, b.encode .big = .ok stored ∧ Bin.decode [0x61] stored = .ok b := by
  intro b data
  obtain ⟨hgoes, hsources, hdata⟩ := stored_form_roundTrip .big
  have hb : b.Storable := ⟨by decide, by decide, by decide⟩
  have hdecode : Bin.decode [0x61] data = .ok b := by cbv
  have hread : Script.readFrom 1 [0x62] .empty
      = .ok ([1908338681] ++ [], ⟨[⟨1908338681, [0x62]⟩]⟩) :=
    Script.readFrom_item (by cbv) (by cbv) (Script.readFrom_end (by cbv) _)
  have hplain : ([0x62] : Bytes).filter (· != 0x0D) = [0x62] ∧
      ([0x62] : Bytes).length = 1 := by decide
  obtain ⟨c, hc, -⟩ := exists_bin_of_readFrom [0x61] hplain hread
  refine ⟨hb, ?_, ⟨c, hc, hsources _ _ c hc⟩, hdecode, hdata _ _ b hdecode⟩
  obtain ⟨stored, hencode, hstored⟩ := hgoes b hb
  have hlength : stored.length < 2 ^ 32 := by
    have hsize : (b.encode .big).map List.length = .ok 56 := by cbv
    rw [hencode] at hsize
    have hstored : stored.length = 56 := Except.ok.inj hsize
    omega
  exact ⟨stored, hencode, hlength, hstored hlength⟩

end EffectScript
