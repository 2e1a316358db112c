import AccretionDb.SsTable.Format

/-! # The Bloom filter

A bit array with `numHashes` probes for each key, by double hashing.  A key that was
inserted is found again, whatever was inserted after it and whatever the digests are.
-/

namespace AccretionDb

open CrashLogic

/-- The digests, and the one computation in floating point:
`idealHashes num_bits n` is `((num_bits as f64 / n as f64) * LN_2).round() as i64`. -/
class TableHashing extends Hashing where
  idealHashes : Nat → Nat → Int

/-- The digest of the empty key, and the number of probes with six digits of `LN_2`. -/
@[reducible] def TableHashing.emptyKey : TableHashing where
  toHashing := .emptyKey
  idealHashes numBits n := ((numBits * 693147 * 2 + n * 1000000) / (n * 2000000) : Nat)

structure BloomFilter where
  bits : Bytes
  numBits : Nat
  numHashes : Nat
  deriving DecidableEq, Repr

/-- The bit of a byte that an index names. -/
def bitOf (idx : Nat) : UInt8 := 1 <<< UInt8.ofNat (idx % 8)

theorem bitOf_ne_zero (idx : Nat) : bitOf idx ≠ 0 := by
  have hall : ∀ r : Fin 8, (1 : UInt8) <<< UInt8.ofNat r.val ≠ 0 := by decide
  exact hall ⟨idx % 8, Nat.mod_lt _ (by decide)⟩

def setBit (bits : Bytes) (idx : Nat) : Bytes := bits.modify (idx / 8) fun b => b ||| bitOf idx

def getBit (bits : Bytes) (idx : Nat) : Bool := decide (bits.getD (idx / 8) 0 &&& bitOf idx ≠ 0)

@[simp] theorem length_setBit (bits : Bytes) (idx : Nat) : (setBit bits idx).length = bits.length :=
  List.length_modify ..

theorem or_and_ne_zero {a m : UInt8} (b : UInt8) (h : a &&& m ≠ 0) : (a ||| b) &&& m ≠ 0 := by
  have hd : (a ||| b) &&& m = (a &&& m) ||| (b &&& m) := by
    apply UInt8.toBitVec_inj.mp
    simp only [UInt8.toBitVec_and, UInt8.toBitVec_or]
    exact BitVec.and_or_distrib_right
  rw [hd, ne_eq, UInt8.or_eq_zero_iff]
  exact fun hz => h hz.1

theorem getD_setBit (bits : Bytes) (idx j : Nat) : (setBit bits idx).getD j 0 =
    if idx / 8 = j ∧ j < bits.length then bits.getD j 0 ||| bitOf idx else bits.getD j 0 := by
  simp only [setBit, List.getD_eq_getElem?_getD, List.getElem?_modify]
  by_cases hj : idx / 8 = j
  · subst hj
    by_cases hlt : idx / 8 < bits.length
    · simp [hlt]
    · simp [hlt]
  · simp [hj]

/-- A set bit stays set. -/
theorem getBit_setBit_of_getBit {bits : Bytes} {i : Nat} (idx : Nat) (h : getBit bits i = true) :
    getBit (setBit bits idx) i = true := by
  have h' := of_decide_eq_true h
  refine decide_eq_true ?_
  rw [getD_setBit]
  split
  · exact or_and_ne_zero _ h'
  · exact h'

theorem getBit_setBit_self {bits : Bytes} {idx : Nat} (h : idx / 8 < bits.length) :
    getBit (setBit bits idx) idx = true := by
  refine decide_eq_true ?_
  rw [getD_setBit, if_pos ⟨rfl, h⟩, UInt8.or_comm]
  refine or_and_ne_zero _ ?_
  rw [UInt8.and_self]
  exact bitOf_ne_zero idx

section SetBits

variable {bits : Bytes}

theorem length_foldl_setBit (is : List Nat) : (is.foldl setBit bits).length = bits.length := by
  induction is generalizing bits with
  | nil => rfl
  | cons i is ih => rw [List.foldl_cons, ih, length_setBit]

theorem getBit_foldl_of_getBit {i : Nat} (is : List Nat) (h : getBit bits i = true) :
    getBit (is.foldl setBit bits) i = true := by
  induction is generalizing bits with
  | nil => exact h
  | cons j is ih => exact ih (getBit_setBit_of_getBit j h)

theorem getBit_foldl {is : List Nat} (hlt : ∀ i ∈ is, i / 8 < bits.length) :
    ∀ i ∈ is, getBit (is.foldl setBit bits) i = true := by
  induction is generalizing bits with
  | nil => exact fun i hi => absurd hi List.not_mem_nil
  | cons j is ih =>
    intro i hi
    rcases List.mem_cons.mp hi with rfl | hi
    · exact getBit_foldl_of_getBit is (getBit_setBit_self (hlt i List.mem_cons_self))
    · refine ih (fun x hx => ?_) i hi
      rw [length_setBit]
      exact hlt x (List.mem_cons_of_mem _ hx)

end SetBits

namespace BloomFilter

section Codec

/-- What `decode` asks of a filter, and what its fields can hold. -/
structure Sound (b : BloomFilter) : Prop where
  pos : 0 < b.numBits
  whole : b.numBits % 8 = 0
  length : b.numBits / 8 = b.bits.length
  hashes : 0 < b.numHashes
  numBits_lt : b.numBits < 2 ^ 32
  numHashes_lt : b.numHashes < 2 ^ 32

def encode (b : BloomFilter) : Bytes :=
  leBytes 4 b.numBits ++ (leBytes 4 b.numHashes ++ (leBytes 8 b.bits.length ++ b.bits))

def decode : Parser SsTableError BloomFilter := do
  let numBits ← Cursor.u32
  let numHashes ← Cursor.u32
  let byteLen ← Cursor.u64
  let bits ← Cursor.take byteLen
  Cursor.ensure (¬ (numBits = 0 ∨ numBits % 8 ≠ 0))
    (.corrupt s!"bloom num_bits {numBits} is not a positive multiple of 8")
  Cursor.ensure (numHashes ≠ 0) (.corrupt "bloom num_hashes is zero")
  Cursor.ensure (numBits / 8 = bits.length)
    (.corrupt s!"bloom bit-array length {bits.length} disagrees with num_bits {numBits}")
  pure ⟨bits, numBits, numHashes⟩

theorem reads_decode {b : BloomFilter} (h : b.Sound) : Parser.Reads decode b.encode b := by
  obtain ⟨bits, numBits, numHashes⟩ := b
  obtain ⟨hpos, hwhole, hlen, hk, hb, hkl⟩ := h
  simp only at hpos hwhole hlen hk hb hkl
  have hbytes : bits.length < 256 ^ 8 := by omega
  refine (Parser.Reads.nat (by omega)).bind ?_
  refine (Parser.Reads.nat (by omega)).bind ?_
  refine (Parser.Reads.nat hbytes).bind ?_
  show Parser.Reads _ bits _
  rw [← List.append_nil bits]
  refine (Parser.Reads.take (by rw [List.append_nil])).bind ?_
  rw [List.append_nil]
  have hmult : ¬ (numBits = 0 ∨ numBits % 8 ≠ 0) := by omega
  refine (Cursor.reads_ensure hmult).bind (y := []) ?_
  refine (Cursor.reads_ensure hk.ne').bind (y := []) ?_
  exact (Cursor.reads_ensure hlen).bind (y := []) (.pure _)

end Codec

variable [TableHashing]

/-- The bytes of a filter for this many keys. -/
def numBytes (expectedKeys bitsPerKey : Nat) : Nat :=
  let n := max expectedKeys 1
  let targetBits := max (min (n * bitsPerKey) (2 ^ 64 - 1)) 64
  (targetBits + 7) / 8

def new (expectedKeys bitsPerKey : Nat) : BloomFilter :=
  let n := max expectedKeys 1
  let numBytes := numBytes expectedKeys bitsPerKey
  let numBits := numBytes * 8 % 2 ^ 32
  let k := TableHashing.idealHashes numBits n
  ⟨List.replicate numBytes 0, numBits, (max 1 (min k 30)).toNat⟩

/-- The number of bits fits its field. -/
def NewFits (expectedKeys bitsPerKey : Nat) : Prop :=
  numBytes expectedKeys bitsPerKey * 8 < 2 ^ 32

instance (expectedKeys bitsPerKey : Nat) : Decidable (NewFits expectedKeys bitsPerKey) :=
  inferInstanceAs (Decidable (_ < _))

def hashes (b : BloomFilter) (key : Bytes) : Nat × Nat :=
  let h := (Hashing.xxh3_128 key).toNat
  (h % 2 ^ 64, h / 2 ^ 64 % (b.numBits - 1) + 1)

def probes (b : BloomFilter) (key : Bytes) : List Nat :=
  let (h1, h2) := b.hashes key
  (List.range b.numHashes).map fun i => (h1 + i * h2 % 2 ^ 64) % 2 ^ 64 % b.numBits

/-- A filter without bits makes the remainder panic. -/
def insert (key : Bytes) (b : BloomFilter) : Option BloomFilter :=
  if b.numBits = 0 then none
  else some { b with bits := (b.probes key).foldl setBit b.bits }

/-- A filter that was decoded has bits. -/
def contains (b : BloomFilter) (key : Bytes) : Bool := (b.probes key).all (getBit b.bits)

theorem sound_new {expectedKeys bitsPerKey : Nat} (h : NewFits expectedKeys bitsPerKey) :
    (new expectedKeys bitsPerKey).Sound := by
  have hbytes : 8 ≤ numBytes expectedKeys bitsPerKey := by
    simp only [numBytes]
    omega
  have hbits : (new expectedKeys bitsPerKey).numBits = numBytes expectedKeys bitsPerKey * 8 :=
    Nat.mod_eq_of_lt h
  have hlen : (new expectedKeys bitsPerKey).bits.length = numBytes expectedKeys bitsPerKey :=
    List.length_replicate
  have hk : ∀ k : Int, 0 < (max 1 (min k 30)).toNat ∧ (max 1 (min k 30)).toNat < 2 ^ 32 := by
    intro k
    omega
  have hnew := hk (TableHashing.idealHashes (numBytes expectedKeys bitsPerKey * 8 % 2 ^ 32)
    (max expectedKeys 1))
  refine ⟨by omega, by omega, by omega, hnew.1, ?_, hnew.2⟩
  rw [hbits]
  exact h

theorem probe_lt {b : BloomFilter} (h : b.Sound) (key : Bytes) :
    ∀ i ∈ b.probes key, i / 8 < b.bits.length := by
  intro i hi
  obtain ⟨j, _, rfl⟩ := List.mem_map.mp hi
  have hlt : ∀ n : Nat, n % b.numBits / 8 < b.bits.length := by
    intro n
    have hmod := Nat.mod_lt n h.pos
    have hwhole := h.whole
    have hlen := h.length
    omega
  exact hlt _

theorem Sound.insert {b b' : BloomFilter} {key : Bytes} (h : b.Sound) (hi : b.insert key = some b') :
    b'.Sound := by
  rw [BloomFilter.insert, if_neg h.pos.ne'] at hi
  obtain rfl := Option.some.inj hi
  exact ⟨h.pos, h.whole, by rw [h.length]; exact (length_foldl_setBit _).symm, h.hashes, h.numBits_lt,
    h.numHashes_lt⟩

theorem Sound.insert_isSome {b : BloomFilter} (h : b.Sound) (key : Bytes) :
    ∃ b', b.insert key = some b' := by
  rw [BloomFilter.insert, if_neg h.pos.ne']
  exact ⟨_, rfl⟩

/-- **No false negatives**: what was inserted is found. -/
theorem contains_insert_self {b b' : BloomFilter} {key : Bytes} (h : b.Sound)
    (hi : b.insert key = some b') : b'.contains key = true := by
  rw [BloomFilter.insert, if_neg h.pos.ne'] at hi
  obtain rfl := Option.some.inj hi
  exact List.all_eq_true.mpr (getBit_foldl (probe_lt h key))

/-- What was found before an insertion is found after it. -/
theorem contains_insert_of_contains {b b' : BloomFilter} {key key' : Bytes} (h : b.Sound)
    (hi : b.insert key = some b') (hc : b.contains key' = true) : b'.contains key' = true := by
  rw [BloomFilter.insert, if_neg h.pos.ne'] at hi
  obtain rfl := Option.some.inj hi
  refine List.all_eq_true.mpr fun i hi => ?_
  exact getBit_foldl_of_getBit _ (List.all_eq_true.mp hc i hi)

/-! ### Filters that can be used and read back -/

/-- Insert some keys; `none` where an insertion panics. -/
def insertAll (b : BloomFilter) (keys : List Bytes) : Option BloomFilter :=
  keys.foldlM (fun b key => b.insert key) b

theorem Sound.insertAll {b : BloomFilter} (h : b.Sound) (keys : List Bytes) :
    ∃ b', b.insertAll keys = some b' ∧ b'.Sound := by
  induction keys generalizing b with
  | nil => exact ⟨b, rfl, h⟩
  | cons key keys ih =>
    obtain ⟨b₁, h₁⟩ := h.insert_isSome key
    obtain ⟨b', hb', hs⟩ := ih (h.insert h₁)
    refine ⟨b', ?_, hs⟩
    rw [BloomFilter.insertAll, List.foldlM_cons, h₁]
    exact hb'

/-- The probes of a key divide by `num_bits - 1` and by `num_bits` and index the bit
array, and none of this panics. -/
def Probes (b : BloomFilter) (key : Bytes) : Prop :=
  b.numBits ≠ 0 ∧ b.numBits - 1 ≠ 0 ∧ ∀ i ∈ b.probes key, i / 8 < b.bits.length

theorem Sound.probes {b : BloomFilter} (h : b.Sound) (key : Bytes) : b.Probes key := by
  have hpos := h.pos
  have hwhole := h.whole
  exact ⟨by omega, by omega, probe_lt h key⟩

/-- A filter for this many keys, with whatever keys in it, is as long as it says, works,
and is read back from its encoding. -/
def Exact (expectedKeys bitsPerKey : Nat) : Prop :=
  ∀ keys, ∃ b, (new expectedKeys bitsPerKey).insertAll keys = some b ∧
    b.numBits = 8 * b.bits.length ∧ (∀ key, b.Probes key) ∧
    ∀ rest, decode (b.encode ++ rest) = .ok (b, rest)

theorem Exact.newFits {expectedKeys bitsPerKey : Nat} (h : Exact expectedKeys bitsPerKey) :
    NewFits expectedKeys bitsPerKey := by
  obtain ⟨b, hb, hlen, -⟩ := h []
  obtain rfl := Option.some.inj hb
  have hbits : (new expectedKeys bitsPerKey).numBits < 2 ^ 32 := Nat.mod_lt _ (by decide)
  have hbytes : (new expectedKeys bitsPerKey).bits.length = numBytes expectedKeys bitsPerKey :=
    List.length_replicate
  rw [NewFits]
  omega

/-- **A new filter is exact where its number of bits fits a `u32`, and only there.** -/
theorem exact_iff (expectedKeys bitsPerKey : Nat) :
    Exact expectedKeys bitsPerKey ↔ NewFits expectedKeys bitsPerKey := by
  refine ⟨Exact.newFits, fun h keys => ?_⟩
  obtain ⟨b, hb, hs⟩ := (sound_new h).insertAll keys
  have hwhole := hs.whole
  have hlen := hs.length
  exact ⟨b, hb, by omega, hs.probes, reads_decode hs⟩

omit [TableHashing] in
/-- For 429496729 keys at 10 bits each the number of bits is `2 ^ 32`, which wraps to
zero, so that no key can be inserted; for one key more it wraps to 8. -/
theorem new_wraps : letI := TableHashing.emptyKey
    ¬ Exact 429496729 10 ∧ (new 429496729 10).insert [] = none ∧
      ¬ Exact 429496730 10 ∧ (new 429496730 10).numBits = 8 ∧
      (new 429496730 10).bits.length = 536870913 := by
  have hfit : ∀ n, ¬ NewFits n 10 → ¬ @Exact TableHashing.emptyKey n 10 := by
    intro n hn h
    exact hn (@Exact.newFits TableHashing.emptyKey n 10 h)
  refine ⟨hfit _ (by decide), if_pos ?_, hfit _ (by decide), ?_, ?_⟩
  · decide
  · decide
  · exact List.length_replicate

end BloomFilter

end AccretionDb
