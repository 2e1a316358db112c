import AccretionDb.Lib.Checked
import AccretionDb.SsTable.Reader
import AccretionDb.Storage.View

/-! # Reading a table with every step checked

The reader once more, as a debug build runs it: every subtraction, addition, remainder,
slice and index of the source is made and checked, and every loop counts its rounds.  The
decoders never panic, whatever the bytes are, and answer what their parsers say; so `open`
is the program it was (`open_eq`).  In `get` there is one step that may go wrong: the
subtraction of `find_block`, where the search of the index answers zero (`Misled`).
-/

namespace AccretionDb

open CrashLogic

/-- `slice::partition_point` and `slice::binary_search_by`, as the reader calls them.  What
they answer on a slice that is not in order is unspecified, but for its range. -/
structure Searches where
  partitionPoint : List BlockHandle → Bytes → Nat
  binarySearch : List TableEntry → Bytes → Except Nat Nat
  partitionPoint_le : ∀ index key, partitionPoint index key ≤ index.length
  partitionPoint_append : ∀ front back key, (∀ h ∈ front, h.firstKey ≤ key) →
    (∀ h ∈ back, key < h.firstKey) → partitionPoint (front ++ back) key = front.length
  binarySearch_lt : ∀ entries key i, binarySearch entries key = .ok i → i < entries.length
  binarySearch_sorted : ∀ entries key, SortedKeys entries →
    ((∃ i, binarySearch entries key = .ok i) ↔ ∃ e ∈ entries, e.key = key) ∧
      ∀ i, binarySearch entries key = .ok i → ∃ e, entries[i]? = some e ∧ e.key = key

/-- In an index in order the blocks that begin behind the key come last. -/
theorem exists_partition {index : List BlockHandle} (key : Bytes)
    (hsort : index.Pairwise fun a b => a.firstKey ≤ b.firstKey) :
    ∃ front back, index = front ++ back ∧ (∀ h ∈ front, h.firstKey ≤ key) ∧
      ∀ h ∈ back, key < h.firstKey := by
  induction index with
  | nil => exact ⟨[], [], rfl, fun _ h => absurd h List.not_mem_nil, fun _ h =>
      absurd h List.not_mem_nil⟩
  | cons x rest ih =>
    obtain ⟨hx, hrest⟩ := List.pairwise_cons.mp hsort
    by_cases hkey : x.firstKey ≤ key
    · obtain ⟨front, back, rfl, hfront, hback⟩ := ih hrest
      exact ⟨x :: front, back, rfl, List.forall_mem_cons.mpr ⟨hkey, hfront⟩, hback⟩
    · have hlt := lt_of_not_ge hkey
      refine ⟨[], x :: rest, rfl, fun _ h => absurd h List.not_mem_nil, ?_⟩
      exact List.forall_mem_cons.mpr ⟨hlt, fun h hh => lt_of_lt_of_le hlt (hx h hh)⟩

/-- Searches that walk the slice from its front. -/
def Searches.linear : Searches where
  partitionPoint index key := (index.takeWhile fun h => decide (h.firstKey ≤ key)).length
  binarySearch entries key :=
    match entries.findIdx? fun e => decide (e.key = key) with
    | some i => .ok i
    | none => .error (entries.takeWhile fun e => decide (e.key < key)).length
  partitionPoint_le _ _ := (List.takeWhile_sublist _).length_le
  partitionPoint_append := by
    intro front back key hfront hback
    have hnone : (back.takeWhile fun h => decide (h.firstKey ≤ key)) = [] := by
      cases back with
      | nil => rfl
      | cons x back =>
        have hx : ¬ x.firstKey ≤ key := not_le_of_gt (hback x List.mem_cons_self)
        rw [List.takeWhile_cons, if_neg (by simpa using hx)]
    rw [List.takeWhile_append_of_pos fun h hh => decide_eq_true (hfront h hh), hnone,
      List.append_nil]
  binarySearch_lt := by
    intro entries key i h
    cases hfind : entries.findIdx? fun e => decide (e.key = key) with
    | none =>
      rw [hfind] at h
      cases h
    | some j =>
      rw [hfind] at h
      obtain rfl := Except.ok.inj h
      obtain ⟨hlt, -⟩ := List.findIdx?_eq_some_iff_getElem.mp hfind
      exact hlt
  binarySearch_sorted := by
    intro entries key _
    cases hfind : entries.findIdx? fun e => decide (e.key = key) with
    | none =>
      have hno := List.findIdx?_eq_none_iff.mp hfind
      refine ⟨⟨?_, ?_⟩, fun i hi => by cases hi⟩
      · rintro ⟨i, hi⟩
        cases hi
      · rintro ⟨e, he, hk⟩
        have := hno e he
        rw [decide_eq_true hk] at this
        cases this
    | some j =>
      obtain ⟨hlt, hp, -⟩ := List.findIdx?_eq_some_iff_getElem.mp hfind
      have hk := of_decide_eq_true hp
      refine ⟨⟨fun _ => ⟨_, List.getElem_mem hlt, hk⟩, fun _ => ⟨j, rfl⟩⟩, fun i hi => ?_⟩
      obtain rfl := Except.ok.inj hi
      exact ⟨_, List.getElem?_eq_getElem hlt, hk⟩

/-! ### What the decoders promise -/

theorem Cursor.ensure_ok {c : Prop} [Decidable c] {e : SsTableError} {b rest : Bytes} {u : Unit}
    (h : Cursor.ensure c e b = .ok (u, rest)) : c ∧ b = rest := by
  rw [Cursor.ensure] at h
  by_cases hc : c
  · rw [if_pos hc] at h
    exact ⟨hc, (Parser.pure_ok h).2⟩
  · rw [if_neg hc] at h
    cases h

theorem decodeFooter_ok {b rest : Bytes} {f : Footer}
    (h : decodeFooter b = .ok (f, rest)) : f.Fits := by
  obtain ⟨magic, b₁, -, h⟩ := Parser.bind_ok h
  obtain ⟨_, b₂, -, h⟩ := Parser.bind_ok h
  obtain ⟨version, b₃, -, h⟩ := Parser.bind_ok h
  obtain ⟨_, b₄, -, h⟩ := Parser.bind_ok h
  obtain ⟨indexOff, b₅, h1, h⟩ := Parser.bind_ok h
  obtain ⟨indexLen, b₆, h2, h⟩ := Parser.bind_ok h
  obtain ⟨bloomOff, b₇, h3, h⟩ := Parser.bind_ok h
  obtain ⟨bloomLen, b₈, h4, h⟩ := Parser.bind_ok h
  obtain ⟨numEntries, b₉, h5, h⟩ := Parser.bind_ok h
  obtain ⟨rfl, -⟩ := Parser.pure_ok h
  exact ⟨(Parser.nat_ok h1).2, (Parser.nat_ok h2).2, (Parser.nat_ok h3).2, (Parser.nat_ok h4).2,
    (Parser.nat_ok h5).2⟩

theorem BloomFilter.decode_ok {c rest : Bytes} {b : BloomFilter}
    (h : BloomFilter.decode c = .ok (b, rest)) : b.Sound := by
  obtain ⟨numBits, c₁, h1, h⟩ := Parser.bind_ok h
  obtain ⟨numHashes, c₂, h2, h⟩ := Parser.bind_ok h
  obtain ⟨byteLen, c₃, -, h⟩ := Parser.bind_ok h
  obtain ⟨bits, c₄, -, h⟩ := Parser.bind_ok h
  obtain ⟨_, c₅, h3, h⟩ := Parser.bind_ok h
  obtain ⟨_, c₆, h4, h⟩ := Parser.bind_ok h
  obtain ⟨_, c₇, h5, h⟩ := Parser.bind_ok h
  obtain ⟨rfl, -⟩ := Parser.pure_ok h
  have hbits := (Cursor.ensure_ok h3).1
  have hhashes := (Cursor.ensure_ok h4).1
  have hpos : 0 < numBits := by omega
  have hwhole : numBits % 8 = 0 := by omega
  exact ⟨hpos, hwhole, (Cursor.ensure_ok h5).1, Nat.pos_of_ne_zero hhashes, (Parser.nat_ok h1).2,
    (Parser.nat_ok h2).2⟩

theorem decodeIndex_ok {buf : Bytes} {index : List BlockHandle} (hlen : 4 ≤ buf.length)
    (h : decodeIndex buf = .ok index) : IndexFits index := by
  have hcrc : (buf.drop (buf.length - 4)).length = 4 := by
    rw [List.length_drop]
    omega
  rw [← List.take_append_drop (buf.length - 4) buf] at h
  obtain ⟨rest, -, hfits⟩ := (decodeIndex_iff hcrc).mp h
  exact hfits

/-- What a reader that was opened holds: the filter works, and the lengths of the blocks
are words of 32 bits. -/
structure SsTableReader.Decoded (r : SsTableReader) : Prop where
  bloom : r.bloom.Sound
  index : IndexFits r.index

namespace Debug

/-! ### The cursor and the blocks -/

namespace Cursor

abbrev take (n : Nat) : Scanner SsTableError Bytes := Scanner.take AccretionDb.Cursor.short n
abbrev u8 : Scanner SsTableError Nat := Scanner.byte AccretionDb.Cursor.short
abbrev u32 : Scanner SsTableError Nat := Scanner.nat AccretionDb.Cursor.short 4
abbrev u64 : Scanner SsTableError Nat := Scanner.nat AccretionDb.Cursor.short 8

/-- Go on if the condition holds. -/
def ensure (c : Prop) [Decidable c] (e : SsTableError) : Scanner SsTableError Unit :=
  if c then pure () else throw e

theorem follows_ensure (c : Prop) [Decidable c] (e : SsTableError) :
    Follows (ensure c e) (AccretionDb.Cursor.ensure c e) := .ite (.pure ()) (.throw e)

end Cursor

def decodeValue (tag : Nat) : Scanner SsTableError Value :=
  if tag = TAG_PUT then do
    let vlen ← Cursor.u32
    let v ← Cursor.take vlen
    pure (.put v)
  else if tag = TAG_DELETE then pure .delete
  else throw (.corrupt s!"unknown value tag {tag} in data block")

def decodeEntry : Scanner SsTableError TableEntry := do
  let keyLen ← Cursor.u32
  let key ← Cursor.take keyLen
  let seq ← Cursor.u64
  let tag ← Cursor.u8
  let value ← decodeValue tag
  pure ⟨key, seq, value⟩

def decodeBlock (buf : Bytes) : Option (Except SsTableError (List TableEntry)) :=
  Scanner.scan (Scanner.many decodeEntry (buf.length + 1)) buf

def decodeHandle : Scanner SsTableError BlockHandle := do
  let keyLen ← Cursor.u32
  let firstKey ← Cursor.take keyLen
  let offset ← Cursor.u64
  let len ← Cursor.u32
  pure ⟨firstKey, offset, len⟩

def decodeIndex (buf : Bytes) : Option (Except SsTableError (List BlockHandle)) := do
  let body ← Checked.strip 4 buf
  Scanner.scan (do
    let count ← Cursor.u32
    Scanner.times decodeHandle count) body

def decodeFooter : Scanner SsTableError Footer := do
  let magic ← Cursor.u64
  Cursor.ensure (magic = FOOTER_MAGIC) (.corrupt "footer magic mismatch")
  let version ← Cursor.u32
  Cursor.ensure (version = FORMAT_VERSION) (.corrupt s!"unsupported format version {version}")
  let indexOff ← Cursor.u64
  let indexLen ← Cursor.u32
  let bloomOff ← Cursor.u64
  let bloomLen ← Cursor.u32
  let numEntries ← Cursor.u64
  pure ⟨indexOff, indexLen, bloomOff, bloomLen, numEntries⟩

theorem follows_decodeValue (tag : Nat) :
    Follows (decodeValue tag) (AccretionDb.decodeValue tag) := by
  refine .ite ?_ (.ite (.pure _) (.throw _))
  exact (Follows.nat 4).bind fun vlen => (Follows.take vlen).bind fun v => .pure _

theorem follows_decodeEntry : Follows decodeEntry AccretionDb.decodeEntry := by
  refine (Follows.nat 4).bind fun keyLen => (Follows.take keyLen).bind fun key => ?_
  refine (Follows.nat 8).bind fun seq => Follows.byte.bind fun tag => ?_
  exact (follows_decodeValue tag).bind fun value => .pure _

theorem follows_decodeHandle : Follows decodeHandle AccretionDb.decodeHandle := by
  refine (Follows.nat 4).bind fun keyLen => (Follows.take keyLen).bind fun firstKey => ?_
  exact (Follows.nat 8).bind fun offset => (Follows.nat 4).bind fun len => .pure _

theorem follows_decodeFooter : Follows decodeFooter AccretionDb.decodeFooter := by
  refine (Follows.nat 8).bind fun magic => (Cursor.follows_ensure _ _).bind fun _ => ?_
  refine (Follows.nat 4).bind fun version => (Cursor.follows_ensure _ _).bind fun _ => ?_
  refine (Follows.nat 8).bind fun indexOff => (Follows.nat 4).bind fun indexLen => ?_
  refine (Follows.nat 8).bind fun bloomOff => (Follows.nat 4).bind fun bloomLen => ?_
  exact (Follows.nat 8).bind fun numEntries => .pure _

/-- **Decoding a block ends**, since every entry takes bytes. -/
theorem decodeBlock_eq {buf : Bytes} (h : buf.length < 2 ^ 64) :
    decodeBlock buf = some (AccretionDb.decodeBlock buf) := by
  refine follows_decodeEntry.scan_many (fun b e rest he => ?_) h
  obtain ⟨rfl, -⟩ := decodeEntry_ok he
  have hpos := List.length_pos_iff.mpr (encode_ne_nil e)
  rw [List.length_append]
  omega

theorem decodeIndex_eq {buf : Bytes} (h : 4 ≤ buf.length) (h' : buf.length < 2 ^ 64) :
    decodeIndex buf = some (AccretionDb.decodeIndex buf) := by
  have hbody : (buf.take (buf.length - 4)).length < 2 ^ 64 := by
    rw [List.length_take]
    omega
  have hfollows : Follows (Cursor.u32 >>= Scanner.times decodeHandle)
      (AccretionDb.Cursor.u32 >>= Parser.times AccretionDb.decodeHandle) :=
    (Follows.nat 4).bind fun count => follows_decodeHandle.times count
  rw [decodeIndex, Checked.strip_of_le h]
  exact hfollows.scan_eq hbody

section Hashed

variable [TableHashing]

def verifyCrc (buf : Bytes) (what : String) : Option (Except SsTableError Unit) :=
  if buf.length < 4 then some (.error (.corrupt s!"{what} too short for a crc"))
  else do
    let (body, stored) ← Checked.splitNat 4 buf
    let stored := UInt32.ofNat stored
    let actual := Hashing.crc32 body
    if stored ≠ actual then
      some (.error (.corrupt
        s!"{what} crc mismatch: stored {hex32 stored}, computed {hex32 actual}"))
    else some (.ok ())

theorem verifyCrc_eq (buf : Bytes) (what : String) :
    verifyCrc buf what = some (AccretionDb.verifyCrc buf what) := by
  rw [verifyCrc, AccretionDb.verifyCrc]
  by_cases hlen : buf.length < 4
  · rw [if_pos hlen, if_pos hlen]
  · rw [if_neg hlen, if_neg hlen, Checked.splitNat_of_le (Nat.le_of_not_lt hlen)]
    exact (apply_ite some _ _ _).symm

theorem length_of_verifyCrc {buf : Bytes} {what : String}
    (h : AccretionDb.verifyCrc buf what = .ok ()) : 4 ≤ buf.length := by
  by_contra hlen
  rw [AccretionDb.verifyCrc, if_pos (Nat.lt_of_not_le hlen)] at h
  cases h

end Hashed

/-! ### The filter -/

namespace BloomFilter

def decode : Scanner SsTableError AccretionDb.BloomFilter := do
  let numBits ← Cursor.u32
  let numHashes ← Cursor.u32
  let byteLen ← Cursor.u64
  let bits ← Cursor.take byteLen
  Cursor.ensure (¬ (numBits = 0 ∨ numBits % 8 ≠ 0))
    (.corrupt s!"bloom num_bits {numBits} is not a positive multiple of 8")
  Cursor.ensure (numHashes ≠ 0) (.corrupt "bloom num_hashes is zero")
  Cursor.ensure (numBits / 8 = bits.length)
    (.corrupt s!"bloom bit-array length {bits.length} disagrees with num_bits {numBits}")
  pure ⟨bits, numBits, numHashes⟩

theorem follows_decode : Follows decode AccretionDb.BloomFilter.decode := by
  refine (Follows.nat 4).bind fun numBits => (Follows.nat 4).bind fun numHashes => ?_
  refine (Follows.nat 8).bind fun byteLen => (Follows.take byteLen).bind fun bits => ?_
  refine (Cursor.follows_ensure _ _).bind fun _ => (Cursor.follows_ensure _ _).bind fun _ => ?_
  exact (Cursor.follows_ensure _ _).bind fun _ => .pure _

variable [TableHashing]

def hashes (b : AccretionDb.BloomFilter) (key : Bytes) : Option (Nat × Nat) := do
  let h := (Hashing.xxh3_128 key).toNat
  let m ← Checked.sub b.numBits 1
  let h2 ← Checked.rem (h / 2 ^ 64) m
  let h2 ← Checked.add h2 1
  pure (h % 2 ^ 64, h2)

/-- Test the bit of one probe. -/
def test (b : AccretionDb.BloomFilter) (h1 h2 i : Nat) : Option Bool := do
  let idx ← Checked.rem ((h1 + i * h2 % 2 ^ 64) % 2 ^ 64) b.numBits
  let byte ← b.bits[idx / 8]?
  pure (decide (byte &&& bitOf idx ≠ 0))

def contains (b : AccretionDb.BloomFilter) (key : Bytes) : Option Bool := do
  let (h1, h2) ← hashes b key
  Checked.all (test b h1 h2) (List.range b.numHashes)

/-- **A sound filter is probed without a panic.** -/
theorem contains_eq {b : AccretionDb.BloomFilter} (h : b.Sound) (key : Bytes) :
    contains b key = some (b.contains key) := by
  obtain ⟨hbits, hstep, hprobes⟩ := h.probes key
  have hlt := h.numBits_lt
  have hmod : (Hashing.xxh3_128 key).toNat / 2 ^ 64 % (b.numBits - 1) < b.numBits - 1 :=
    Nat.mod_lt _ (Nat.pos_of_ne_zero hstep)
  have hhash : hashes b key = some (b.hashes key) := by
    rw [hashes, Checked.sub_of_le (by omega)]
    show (Checked.rem _ (b.numBits - 1) >>= _) = _
    rw [Checked.rem_of_ne hstep]
    show (Checked.add _ 1 >>= _) = _
    rw [Checked.add_of_lt (by omega)]
    rfl
  have htest : ∀ i ∈ List.range b.numHashes, test b (b.hashes key).1 (b.hashes key).2 i =
      some (getBit b.bits (((b.hashes key).1 + i * (b.hashes key).2 % 2 ^ 64) % 2 ^ 64 %
        b.numBits)) := by
    intro i hi
    have hidx : ((b.hashes key).1 + i * (b.hashes key).2 % 2 ^ 64) % 2 ^ 64 % b.numBits / 8 <
        b.bits.length := hprobes _ (List.mem_map_of_mem hi)
    rw [test, Checked.rem_of_ne hbits]
    show (b.bits[_]? >>= _) = _
    rw [List.getElem?_eq_getElem hidx, getBit, List.getD_eq_getElem?_getD,
      List.getElem?_eq_getElem hidx]
    rfl
  rw [contains, hhash]
  refine (Checked.all_of_forall htest).trans ?_
  rw [AccretionDb.BloomFilter.contains, AccretionDb.BloomFilter.probes, List.all_map]
  rfl

end BloomFilter

/-! ### The reader -/

/-- What is read is as long as was asked for. -/
theorem readExact_bind_congr {M β : Type} {path : Path} {offset len : Nat}
    {f g : Bytes → Io M SsTableError β} (h : ∀ buf : Bytes, buf.length = len → f buf = g buf) :
    (readExact path offset len >>= f) = (readExact path offset len >>= g) := by
  rw [readExact, bind_assoc, bind_assoc]
  refine bind_congr fun buf => ?_
  by_cases hlen : buf.length = len
  · rw [if_pos hlen, pure_bind, pure_bind]
    exact h buf hlen
  · rw [if_neg hlen]
    rfl

namespace SsTableReader

variable [TableHashing] {M : Type}

def «open» (path : Path) : Io M SsTableError AccretionDb.SsTableReader := do
  let fileLen ← (storage (.len path)).mapError .storage
  if fileLen < FOOTER_SIZE then
    throw (.corrupt
      s!"file length {fileLen} is smaller than a footer ({FOOTER_SIZE} bytes)")
  else do
    let footerAt ← Act.unwrap (Checked.sub fileLen FOOTER_SIZE)
    let footer ← readExact path footerAt FOOTER_SIZE
    Act.checked (verifyCrc footer "footer")
    let f ← Act.checked (Scanner.scan decodeFooter footer)
    let footerStart ← Act.unwrap (Checked.sub fileLen FOOTER_SIZE)
    Act.ofExcept (checkRegion f.indexOff f.indexLen footerStart "index")
    Act.ofExcept (checkRegion f.bloomOff f.bloomLen footerStart "bloom")
    let indexBuf ← readExact path f.indexOff f.indexLen
    Act.checked (verifyCrc indexBuf "index")
    let index ← Act.checked (decodeIndex indexBuf)
    let bloomBuf ← readExact path f.bloomOff f.bloomLen
    Act.checked (verifyCrc bloomBuf "bloom")
    let body ← Act.unwrap (Checked.strip 4 bloomBuf)
    let bloom ← Act.checked (Scanner.scan BloomFilter.decode body)
    pure ⟨path, index, bloom, f.numEntries⟩

/-- **Opening a table never panics**: the checked program is the one without checks. -/
theorem open_eq (path : Path) :
    («open» path : Io M SsTableError _) = AccretionDb.SsTableReader.open path := by
  rw [«open», AccretionDb.SsTableReader.open]
  refine bind_congr fun fileLen => ?_
  by_cases hlen : fileLen < FOOTER_SIZE
  · rw [if_pos hlen, if_pos hlen]
  · have hsub := Checked.sub_of_le (Nat.le_of_not_lt hlen)
    rw [if_neg hlen, if_neg hlen, Act.unwrap_bind hsub]
    refine readExact_bind_congr fun footer hfooter => ?_
    have hfull : footer.length < 2 ^ 64 := by
      rw [hfooter]
      decide
    rw [Act.checked_eq (verifyCrc_eq footer "footer"),
      Act.checked_eq (follows_decodeFooter.scan_eq hfull)]
    refine bind_congr fun _ => Act.ofExcept_bind_congr fun f hf => ?_
    obtain ⟨rest, hf⟩ := Parser.of_map_fst hf
    have hfits := decodeFooter_ok hf
    rw [Act.unwrap_bind hsub]
    refine bind_congr fun _ => bind_congr fun _ => readExact_bind_congr fun indexBuf hindex => ?_
    rw [Act.checked_eq (verifyCrc_eq indexBuf "index")]
    refine Act.ofExcept_bind_congr fun _ hcrc => ?_
    have hbound := hfits.indexLen
    rw [Act.checked_eq (decodeIndex_eq (length_of_verifyCrc hcrc) (by omega))]
    refine bind_congr fun index => readExact_bind_congr fun bloomBuf hbloom => ?_
    rw [Act.checked_eq (verifyCrc_eq bloomBuf "bloom")]
    refine Act.ofExcept_bind_congr fun _ hcrc' => ?_
    have hbound' := hfits.bloomLen
    have hbody : (bloomBuf.take (bloomBuf.length - 4)).length < 2 ^ 64 := by
      rw [List.length_take]
      omega
    rw [Act.unwrap_bind (Checked.strip_of_le (length_of_verifyCrc hcrc')),
      Act.checked_eq (BloomFilter.follows_decode.scan_eq hbody)]
    rfl

theorem readsOnly_open (path : Path) :
    ReadsOnly path (AccretionDb.SsTableReader.open path : Io M SsTableError _) := by
  have hread : ∀ offset len, ReadsOnly path (readExact path offset len : Io M _ _) := by
    intro offset len
    exact ((ReadsOnly.readAt offset len).mapError _).bind fun buf => .ite (.pure _) (.throw _)
  refine (ReadsOnly.len.mapError _).bind fun fileLen => .ite (.throw _) ?_
  refine (hread _ _).bind fun footer => (ReadsOnly.ofExcept _).bind fun _ => ?_
  refine (ReadsOnly.ofExcept _).bind fun f => (ReadsOnly.ofExcept _).bind fun _ => ?_
  refine (ReadsOnly.ofExcept _).bind fun _ => (hread _ _).bind fun indexBuf => ?_
  refine (ReadsOnly.ofExcept _).bind fun _ => (ReadsOnly.ofExcept _).bind fun index => ?_
  refine (hread _ _).bind fun bloomBuf => (ReadsOnly.ofExcept _).bind fun _ => ?_
  exact (ReadsOnly.ofExcept _).bind fun bloom => .pure _

/-- The index of the block that could contain the key. -/
def findBlock (std : Searches) (r : AccretionDb.SsTableReader) (key : Bytes) :
    Option (Option Nat) :=
  if r.index.isEmpty then some none
  else do
    let h ← r.index[0]?
    if key < h.firstKey then some none
    else do
      let i ← Checked.sub (std.partitionPoint r.index key) 1
      some (some i)

def loadBlock (r : AccretionDb.SsTableReader) (idx : Nat) :
    Io M SsTableError (List TableEntry) := do
  let h ← Act.unwrap r.index[idx]?
  let raw ← readExact r.path h.offset h.len
  Act.checked (verifyCrc raw "data block")
  let body ← Act.unwrap (Checked.strip 4 raw)
  Act.checked (decodeBlock body)

def get (std : Searches) (r : AccretionDb.SsTableReader) (key : Bytes) :
    Io M SsTableError (Option TableEntry) := do
  let hit ← Act.unwrap (BloomFilter.contains r.bloom key)
  if hit then do
    match ← Act.unwrap (findBlock std r key) with
    | none => pure none
    | some blockIdx => do
      let entries ← loadBlock r blockIdx
      match std.binarySearch entries key with
      | .ok i => do
        let e ← Act.unwrap entries[i]?
        pure (some e)
      | .error _ => pure none
  else pure none

theorem loadBlock_eq {r : AccretionDb.SsTableReader} (hr : r.Decoded) {idx : Nat}
    {h : BlockHandle} (hidx : r.index[idx]? = some h) :
    (loadBlock r idx : Io M SsTableError _) = r.loadBlock h := by
  have hlen := (hr.index.2 h (List.mem_of_getElem? hidx)).2.2
  rw [loadBlock, Act.unwrap_bind hidx, AccretionDb.SsTableReader.loadBlock]
  refine readExact_bind_congr fun raw hraw => ?_
  rw [Act.checked_eq (verifyCrc_eq raw "data block")]
  refine Act.ofExcept_bind_congr fun _ hcrc => ?_
  have hbody : (raw.take (raw.length - 4)).length < 2 ^ 64 := by
    rw [List.length_take]
    omega
  rw [Act.unwrap_bind (Checked.strip_of_le (length_of_verifyCrc hcrc)),
    Act.checked_eq (decodeBlock_eq hbody)]

/-- The walk through a block that is loaded. -/
def walkBlock (block : List TableEntry) : Nat → Nat → Option (List TableEntry)
  | 0, _ => none
  | rounds + 1, within =>
    if within < block.length then do
      let e ← block[within]?
      let next ← Checked.add within 1
      let rest ← walkBlock block rounds next
      some (e :: rest)
    else some []

/-- What the iterator yields from this block on, if it yields no error. -/
def iterFrom (r : AccretionDb.SsTableReader) : Nat → Nat → Io M SsTableError (List TableEntry)
  | 0, _ => Act.hang
  | rounds + 1, blockIdx =>
    if blockIdx ≥ r.index.length then pure []
    else do
      let block ← loadBlock r blockIdx
      let next ← Act.unwrap (Checked.add blockIdx 1)
      let entries ← Act.unwrap (walkBlock block (block.length + 1) 0)
      let rest ← iterFrom r rounds next
      pure (entries ++ rest)

def iter (r : AccretionDb.SsTableReader) : Io M SsTableError (List TableEntry) :=
  iterFrom r (r.index.length + 1) 0

/-- The search of the index answers that the key lies in front of the first block, which
it does not. -/
def Misled (std : Searches) (r : AccretionDb.SsTableReader) (key : Bytes) : Prop :=
  r.bloom.contains key = true ∧ (∃ h ∈ r.index.head?, h.firstKey ≤ key) ∧
    std.partitionPoint r.index key = 0

/-- **An index in order misleads no search.** -/
theorem not_misled {std : Searches} {r : AccretionDb.SsTableReader} (key : Bytes)
    (hsort : r.index.Pairwise fun a b => a.firstKey ≤ b.firstKey) : ¬ Misled std r key := by
  rintro ⟨-, ⟨h, hh, hle⟩, hzero⟩
  obtain ⟨front, back, hsplit, hfront, hback⟩ := exists_partition key hsort
  rw [hsplit, std.partitionPoint_append front back key hfront hback] at hzero
  rw [hsplit, List.eq_nil_of_length_eq_zero hzero] at hh
  exact absurd (hback h (List.mem_of_mem_head? hh)) (not_lt_of_ge hle)

theorem Misled.get_eq {std : Searches} {r : AccretionDb.SsTableReader} {key : Bytes}
    (hr : r.Decoded) (h : Misled std r key) :
    (get std r key : Io M SsTableError _) = Act.hang := by
  obtain ⟨hhit, ⟨x, hx, hle⟩, hzero⟩ := h
  have hfind : findBlock std r key = none := by
    have hne : r.index ≠ [] := fun he => by
      rw [he] at hx
      cases hx
    rw [findBlock, if_neg (by simpa using hne), ← List.head?_eq_getElem?, Option.mem_def.mp hx]
    show (if key < x.firstKey then _ else _) = _
    rw [if_neg (not_lt_of_ge hle), hzero]
    rfl
  rw [get, Act.unwrap_bind (BloomFilter.contains_eq hr.bloom key), if_pos hhit,
    Act.unwrap_none_bind hfind]

section Anywhere

variable {strict H : Prop} {m : M}

omit [TableHashing] in
/-- Whatever the storage answers. -/
theorem wpE_readExact_any {path : Path} {offset len : Nat} {Q : Bytes → Unit × M → Prop}
    (hQ : ∀ buf : Bytes, buf.length = len → Q buf ((), m)) :
    wpE AnyStorage strict H (fun _ => True) (readExact path offset len) Q (fun _ _ => True)
      ((), m) := by
  refine wpE_bind.mpr (wpE_mapError (wpE_device trivial trivial (fun buf _ _ => ⟨trivial, ?_⟩)
    fun _ _ _ => ⟨trivial, trivial⟩))
  by_cases hlen : buf.length = len
  · rw [if_pos hlen]
    exact wpE_pure.mpr ⟨trivial, hQ buf hlen⟩
  · rw [if_neg hlen]
    exact wpE_throw.mpr ⟨trivial, trivial⟩

omit [TableHashing] in
/-- A result that was computed without a panic. -/
theorem wpE_ofExcept_any {ε α : Type} {r : Except ε α} {Q : α → Unit × M → Prop}
    (hQ : ∀ a, r = .ok a → Q a ((), m)) :
    wpE AnyStorage strict H (fun _ => True) (Act.ofExcept r) Q (fun _ _ => True) ((), m) := by
  refine wpE_ofExcept.mpr ⟨trivial, ?_⟩
  cases r with
  | ok a => exact hQ a rfl
  | error err => exact trivial

/-- **Any file at all can be opened as a table**, or it is an error. -/
theorem wpE_open_any {path : Path} {Q : AccretionDb.SsTableReader → Unit × M → Prop}
    (hQ : ∀ r : AccretionDb.SsTableReader, r.Decoded → r.path = path → Q r ((), m)) :
    wpE AnyStorage strict H (fun _ => True) (AccretionDb.SsTableReader.open path) Q
      (fun _ _ => True) ((), m) := by
  refine wpE_bind.mpr (wpE_mapError (wpE_device trivial trivial (fun fileLen _ _ => ⟨trivial, ?_⟩)
    fun _ _ _ => ⟨trivial, trivial⟩))
  by_cases hlen : fileLen < FOOTER_SIZE
  · rw [if_pos hlen]
    exact wpE_throw.mpr ⟨trivial, trivial⟩
  · rw [if_neg hlen]
    refine wpE_bind.mpr (wpE_readExact_any fun footer _ => ?_)
    refine wpE_bind.mpr (wpE_ofExcept_any fun _ _ => wpE_bind.mpr (wpE_ofExcept_any fun f hf => ?_))
    refine wpE_bind.mpr (wpE_ofExcept_any fun _ _ => wpE_bind.mpr (wpE_ofExcept_any fun _ _ => ?_))
    refine wpE_bind.mpr (wpE_readExact_any fun indexBuf _ => ?_)
    refine wpE_bind.mpr (wpE_ofExcept_any fun _ hcrc => wpE_bind.mpr
      (wpE_ofExcept_any fun index hindex => ?_))
    refine wpE_bind.mpr (wpE_readExact_any fun bloomBuf _ => wpE_bind.mpr
      (wpE_ofExcept_any fun _ _ => wpE_bind.mpr (wpE_ofExcept_any fun bloom hbloom => ?_)))
    refine wpE_pure.mpr ⟨trivial, hQ _ ⟨?_, ?_⟩ rfl⟩
    · obtain ⟨rest, hdecode⟩ := Parser.of_map_fst hbloom
      exact BloomFilter.decode_ok hdecode
    · exact decodeIndex_ok (length_of_verifyCrc hcrc) hindex

theorem wpE_loadBlock_any {r : AccretionDb.SsTableReader} (hr : r.Decoded) {idx : Nat}
    (hidx : idx < r.index.length) {Q : List TableEntry → Unit × M → Prop}
    (hQ : ∀ es : List TableEntry, es.length < 2 ^ 64 → Q es ((), m)) :
    wpE AnyStorage strict H (fun _ => True) (loadBlock r idx) Q (fun _ _ => True) ((), m) := by
  obtain ⟨h, hh⟩ : ∃ h, r.index[idx]? = some h := ⟨_, List.getElem?_eq_getElem hidx⟩
  have hlen := (hr.index.2 h (List.mem_of_getElem? hh)).2.2
  rw [loadBlock_eq hr hh]
  refine wpE_bind.mpr (wpE_readExact_any fun raw hraw => ?_)
  refine wpE_bind.mpr (wpE_ofExcept_any fun _ _ => wpE_ofExcept_any fun es hes => hQ es ?_)
  have hfew := length_le_encodeBlock es
  rw [← (decodeBlock_ok hes).1, List.length_take] at hfew
  omega

/-- Where the search of the index does not mislead it, `get` panics on no storage. -/
theorem wpE_get_any {std : Searches} {r : AccretionDb.SsTableReader} (hr : r.Decoded)
    {key : Bytes} (hno : ¬ Misled std r key) :
    wpE AnyStorage strict H (fun _ => True) (get std r key) (fun _ _ => True) (fun _ _ => True)
      ((), m) := by
  rw [get, Act.unwrap_bind (BloomFilter.contains_eq hr.bloom key)]
  cases hhit : r.bloom.contains key with
  | false => exact wpE_pure.mpr ⟨trivial, trivial⟩
  | true =>
    rw [if_pos rfl]
    -- the block that `find_block` names is one of the index
    have hfind : ∃ found, findBlock std r key = some found ∧ ∀ i ∈ found, i < r.index.length := by
      rw [findBlock]
      cases hindex : r.index with
      | nil => exact ⟨none, rfl, fun i hi => by cases hi⟩
      | cons h rest =>
        rw [if_neg (by simp)]
        show ∃ found, (if key < h.firstKey then _ else _) = _ ∧ _
        by_cases hkey : key < h.firstKey
        · exact ⟨none, if_pos hkey, fun i hi => by cases hi⟩
        · have hle := std.partitionPoint_le (h :: rest) key
          have hpos : std.partitionPoint (h :: rest) key ≠ 0 := fun hzero =>
            hno ⟨hhit, ⟨h, by rw [hindex]; rfl, le_of_not_gt hkey⟩, hindex ▸ hzero⟩
          rw [if_neg hkey, Checked.sub_of_le (Nat.pos_of_ne_zero hpos)]
          refine ⟨_, rfl, fun i hi => ?_⟩
          obtain rfl := Option.some.inj hi
          omega
    obtain ⟨found, hfound, hlt⟩ := hfind
    rw [Act.unwrap_bind hfound]
    cases found with
    | none => exact wpE_pure.mpr ⟨trivial, trivial⟩
    | some blockIdx =>
      refine wpE_bind.mpr (wpE_loadBlock_any hr (hlt blockIdx rfl) fun es _ => ?_)
      cases hs : std.binarySearch es key with
      | error i => exact wpE_pure.mpr ⟨trivial, trivial⟩
      | ok i =>
        have hin := std.binarySearch_lt es key i hs
        dsimp only
        rw [Act.unwrap_bind (List.getElem?_eq_getElem hin)]
        exact wpE_pure.mpr ⟨trivial, trivial⟩

omit [TableHashing] in
theorem walkBlock_eq {block : List TableEntry} (hlen : block.length < 2 ^ 64) :
    ∀ rounds within, within ≤ block.length → block.length - within < rounds →
      walkBlock block rounds within = some (block.drop within) := by
  intro rounds
  induction rounds with
  | zero => exact fun _ _ h => absurd h (Nat.not_lt_zero _)
  | succ rounds ih =>
    intro within hle hrounds
    rw [walkBlock]
    by_cases hlt : within < block.length
    · rw [if_pos hlt, List.getElem?_eq_getElem hlt]
      show (Checked.add within 1 >>= _) = _
      rw [Checked.add_of_lt (by omega)]
      show (walkBlock block rounds (within + 1) >>= _) = _
      rw [ih (within + 1) hlt (by omega), List.drop_eq_getElem_cons hlt]
      rfl
    · rw [if_neg hlt, List.drop_eq_nil_of_le (Nat.le_of_not_lt hlt)]

/-- **Iterating ends, on any storage**, without a panic. -/
theorem wpE_iterFrom_any {r : AccretionDb.SsTableReader} (hr : r.Decoded) :
    ∀ rounds blockIdx, blockIdx ≤ r.index.length → r.index.length - blockIdx < rounds →
      wpE AnyStorage strict H (fun _ => True) (iterFrom r rounds blockIdx) (fun _ _ => True)
        (fun _ _ => True) ((), m) := by
  intro rounds
  induction rounds with
  | zero => exact fun _ _ h => absurd h (Nat.not_lt_zero _)
  | succ rounds ih =>
    intro blockIdx hle hrounds
    have hfew := hr.index.1
    rw [iterFrom]
    by_cases hend : blockIdx ≥ r.index.length
    · rw [if_pos hend]
      exact wpE_pure.mpr ⟨trivial, trivial⟩
    · rw [if_neg hend]
      refine wpE_bind.mpr (wpE_loadBlock_any hr (by omega) fun block hblock => ?_)
      have hwalk := walkBlock_eq hblock (block.length + 1) 0 (Nat.zero_le _) (by omega)
      rw [Act.unwrap_bind (Checked.add_of_lt (by omega)), Act.unwrap_bind hwalk]
      refine wpE_bind.mpr (wpE_post (ih (blockIdx + 1) (by omega) (by omega)) (fun rest σ _ _ => ?_)
        fun _ _ _ _ => trivial)
      exact wpE_pure.mpr ⟨trivial, trivial⟩

end Anywhere

/-- **`get` panics where the search of the index misleads it**, and only there. -/
theorem runOn_get {std : Searches} {r : AccretionDb.SsTableReader} (hr : r.Decoded) (key : Bytes)
    (c : Option Bytes) : runOn c (get std r key) = none ↔ Misled std r key := by
  constructor
  · intro h
    by_contra hno
    obtain ⟨res, hres, -⟩ := runOn_total (Q := fun _ => True) (R := fun _ => True)
      (wpE_get_any hr hno) c
    rw [h] at hres
    cases hres
  · intro h
    rw [h.get_eq hr]
    rfl

theorem readsOnly_loadBlock (r : AccretionDb.SsTableReader) (idx : Nat) :
    ReadsOnly r.path (loadBlock r idx : Io M SsTableError _) := by
  refine (ReadsOnly.unwrap _).bind fun h => ReadsOnly.bind ?_ fun raw => ?_
  · exact ((ReadsOnly.readAt _ _).mapError _).bind fun buf => .ite (.pure _) (.throw _)
  · refine (ReadsOnly.checked _).bind fun _ => (ReadsOnly.unwrap _).bind fun body => ?_
    exact ReadsOnly.checked _

theorem readsOnly_iterFrom (r : AccretionDb.SsTableReader) : ∀ rounds blockIdx,
    ReadsOnly r.path (iterFrom r rounds blockIdx : Io M SsTableError _) := by
  intro rounds
  induction rounds with
  | zero => exact fun _ => .hang
  | succ rounds ih =>
    intro blockIdx
    refine .ite (.pure _) ((readsOnly_loadBlock r blockIdx).bind fun block => ?_)
    refine (ReadsOnly.unwrap _).bind fun next => (ReadsOnly.unwrap _).bind fun entries => ?_
    exact (ih next).bind fun rest => .pure _

theorem readsOnly_get (std : Searches) (r : AccretionDb.SsTableReader) (key : Bytes) :
    ReadsOnly r.path (get std r key : Io M SsTableError _) := by
  refine (ReadsOnly.unwrap _).bind fun hit => .ite ?_ (.pure _)
  refine (ReadsOnly.unwrap _).bind fun found => ?_
  cases found with
  | none => exact .pure _
  | some blockIdx =>
    refine (readsOnly_loadBlock r blockIdx).bind fun es => ?_
    cases std.binarySearch es key with
    | error i => exact .pure _
    | ok i => exact (ReadsOnly.unwrap _).bind fun e => .pure _

end SsTableReader

end Debug

end AccretionDb
