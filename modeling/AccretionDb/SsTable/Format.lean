import AccretionDb.Hashing
import AccretionDb.Lib.Parse
import AccretionDb.Memtable
import AccretionDb.Storage.Basic

/-! # The table file format

A table file is a row of data blocks, an index block, a Bloom block and a footer,
each with its CRC behind it.  A data block is a row of entries, and the index has
one handle for each block.  Every structure has its encoder and its decoder here,
with the lemma that the decoder reads what the encoder wrote, as long as no length
was narrowed.
-/

namespace AccretionDb

open CrashLogic

inductive SsTableError
  | storage (e : StorageError)
  | corrupt (message : String)
  | unsorted
  deriving DecidableEq, Repr

/-- The value of an entry; `ValueRef` of the source is the same, borrowed. -/
inductive Value
  | put (v : Bytes)
  | delete
  deriving DecidableEq, Repr

/-- `sstable::Entry`. -/
structure TableEntry where
  key : Bytes
  seq : Nat
  value : Value
  deriving DecidableEq, Repr

/-- `internal_of`. -/
def internalOf (seq : Nat) : Value → InternalValue
  | .put v => ⟨seq, .value v⟩
  | .delete => ⟨seq, .tombstone⟩

/-- `value_ref`. -/
def valueRef (v : InternalValue) : Value :=
  match v.kind with
  | .value bytes => .put bytes
  | .tombstone => .delete

/-- The table entry of a key and its version. -/
def tableEntry (e : Entry) : TableEntry := ⟨e.1, e.2.seq, valueRef e.2⟩

def TableEntry.entry (e : TableEntry) : Entry := (e.key, internalOf e.seq e.value)

@[simp] theorem internalOf_valueRef (v : InternalValue) : internalOf v.seq (valueRef v) = v := by
  obtain ⟨seq, kind⟩ := v
  cases kind <;> rfl

@[simp] theorem entry_tableEntry (e : Entry) : (tableEntry e).entry = e := by
  obtain ⟨key, v⟩ := e
  exact congrArg (key, ·) (internalOf_valueRef v)

def BLOCK_SIZE : Nat := 4096
def FOOTER_MAGIC : Nat := 0x414343525F535354
def FORMAT_VERSION : Nat := 1
def FOOTER_SIZE : Nat := 48
def TAG_DELETE : Nat := 0
def TAG_PUT : Nat := 1
def DEFAULT_BITS_PER_KEY : Nat := 10

/-! ### Cursor -/

namespace Cursor

/-- `Cursor::take` on a buffer that is too short. -/
def short (need have_ : Nat) : SsTableError :=
  .corrupt s!"unexpected end of buffer: need {need} bytes, have {have_}"

abbrev take (n : Nat) : Parser SsTableError Bytes := Parser.take short n
abbrev u8 : Parser SsTableError Nat := Parser.nat short 1
abbrev u32 : Parser SsTableError Nat := Parser.nat short 4
abbrev u64 : Parser SsTableError Nat := Parser.nat short 8

/-- Go on if the condition holds. -/
def ensure (c : Prop) [Decidable c] (e : SsTableError) : Parser SsTableError Unit :=
  if c then pure () else throw e

theorem reads_ensure {c : Prop} [Decidable c] {e : SsTableError} (h : c) :
    Parser.Reads (ensure c e) [] () := by
  rw [ensure, if_pos h]
  exact .pure ()

end Cursor

/-! ### Entries and blocks -/

/-- The bytes of a value behind its tag. -/
def valuePart : Value → Nat
  | .put v => 4 + v.length
  | .delete => 0

/-- How many bytes `encode_entry` writes. -/
def encodedEntryLen (key : Bytes) (value : Value) : Nat :=
  4 + key.length + 8 + 1 + valuePart value

def encodeEntry (key : Bytes) (seq : Nat) (value : Value) : Bytes :=
  leBytes 4 key.length ++ (key ++ (leBytes 8 seq ++
    match value with
    | .put v => leBytes 1 TAG_PUT ++ (leBytes 4 v.length ++ v)
    | .delete => leBytes 1 TAG_DELETE))

def TableEntry.encode (e : TableEntry) : Bytes := encodeEntry e.key e.seq e.value

theorem encodedEntryLen_pos (key : Bytes) (value : Value) : 0 < encodedEntryLen key value := by
  rw [encodedEntryLen]
  omega

theorem length_encodeEntry (key : Bytes) (seq : Nat) (value : Value) :
    (encodeEntry key seq value).length = encodedEntryLen key value := by
  cases value <;>
    simp only [encodeEntry, encodedEntryLen, valuePart, List.length_append, length_leBytes] <;> omega

/-- The value behind its tag. -/
def decodeValue (tag : Nat) : Parser SsTableError Value :=
  if tag = TAG_PUT then do
    let vlen ← Cursor.u32
    let v ← Cursor.take vlen
    pure (.put v)
  else if tag = TAG_DELETE then pure .delete
  else throw (.corrupt s!"unknown value tag {tag} in data block")

def decodeEntry : Parser SsTableError TableEntry := do
  let keyLen ← Cursor.u32
  let key ← Cursor.take keyLen
  let seq ← Cursor.u64
  let tag ← Cursor.u8
  let value ← decodeValue tag
  pure ⟨key, seq, value⟩

def decodeBlock (buf : Bytes) : Except SsTableError (List TableEntry) :=
  Parser.many decodeEntry buf.length buf

/-- No length is narrowed. -/
def LengthsFit (key : Bytes) (value : Value) : Prop :=
  key.length < 2 ^ 32 ∧ ∀ v, value = .put v → v.length < 2 ^ 32

instance (key : Bytes) : ∀ value : Value, Decidable (LengthsFit key value)
  | .put v => decidable_of_iff (key.length < 2 ^ 32 ∧ v.length < 2 ^ 32)
      (and_congr_right fun _ => ⟨fun h _ he => Value.put.inj he ▸ h, fun h => h v rfl⟩)
  | .delete => decidable_of_iff (key.length < 2 ^ 32) ⟨fun h => ⟨h, nofun⟩, And.left⟩

/-- Every field of the entry can hold what it is given. -/
def TableEntry.Fits (e : TableEntry) : Prop := LengthsFit e.key e.value ∧ e.seq < 2 ^ 64

theorem reads_decodeEntry {e : TableEntry} (h : e.Fits) :
    Parser.Reads decodeEntry e.encode e := by
  obtain ⟨key, seq, value⟩ := e
  obtain ⟨⟨hk, hv⟩, hs⟩ := h
  refine (Parser.Reads.nat (by omega)).bind ?_
  refine (Parser.Reads.take rfl).bind ?_
  refine (Parser.Reads.nat (by omega)).bind ?_
  cases value with
  | put v =>
    have hvl : v.length < 2 ^ 32 := hv v rfl
    refine (Parser.Reads.nat (by decide)).bind ?_
    have hval : Parser.Reads (decodeValue TAG_PUT) (leBytes 4 v.length ++ v) (.put v) := by
      rw [decodeValue, if_pos rfl]
      refine (Parser.Reads.nat (by omega)).bind ?_
      exact (Parser.Reads.take rfl).map Value.put
    exact hval.map fun value => TableEntry.mk key seq value
  | delete =>
    have hval : Parser.Reads (decodeValue TAG_DELETE) [] .delete := by
      rw [decodeValue, if_neg (by decide), if_pos rfl]
      exact .pure _
    show Parser.Reads _ (leBytes 1 TAG_DELETE) _
    rw [← List.append_nil (leBytes 1 TAG_DELETE)]
    refine (Parser.Reads.nat (by decide)).bind ?_
    exact hval.map fun value => TableEntry.mk key seq value

/-- The entries of a block in a row. -/
def encodeBlock (es : List TableEntry) : Bytes := es.flatMap TableEntry.encode

theorem encode_ne_nil (e : TableEntry) : e.encode ≠ [] := by
  rw [← List.length_pos_iff, TableEntry.encode, length_encodeEntry]
  exact encodedEntryLen_pos e.key e.value

theorem decodeBlock_encodeBlock {es : List TableEntry} (h : ∀ e ∈ es, e.Fits) :
    decodeBlock (encodeBlock es) = .ok es :=
  Parser.Reads.many es (fun e he => ⟨reads_decodeEntry (h e he), encode_ne_nil e⟩) _ (Nat.le_refl _)

theorem decodeEntry_ok {b rest : Bytes} {e : TableEntry} (h : decodeEntry b = .ok (e, rest)) :
    b = e.encode ++ rest ∧ e.Fits := by
  obtain ⟨keyLen, b₁, h1, h⟩ := Parser.bind_ok h
  obtain ⟨key, b₂, h2, h⟩ := Parser.bind_ok h
  obtain ⟨seq, b₃, h3, h⟩ := Parser.bind_ok h
  obtain ⟨tag, b₄, h4, h⟩ := Parser.bind_ok h
  obtain ⟨value, b₅, h5, h⟩ := Parser.bind_ok h
  obtain ⟨rfl, rfl⟩ := Parser.pure_ok h
  obtain ⟨rfl, hkey⟩ := Parser.nat_ok h1
  obtain ⟨rfl, rfl⟩ := Parser.take_ok h2
  obtain ⟨rfl, hseq⟩ := Parser.nat_ok h3
  obtain ⟨rfl, -⟩ := Parser.nat_ok h4
  rw [decodeValue] at h5
  by_cases hput : tag = TAG_PUT
  · rw [if_pos hput] at h5
    obtain ⟨vlen, b₆, h6, h7⟩ := Parser.bind_ok h5
    obtain ⟨v, b₇, h8, h9⟩ := Parser.bind_ok h7
    obtain ⟨rfl, rfl⟩ := Parser.pure_ok h9
    obtain ⟨rfl, hvlen⟩ := Parser.nat_ok h6
    obtain ⟨rfl, rfl⟩ := Parser.take_ok h8
    refine ⟨?_, ⟨hkey, ?_⟩, hseq⟩
    · simp only [hput, TableEntry.encode, encodeEntry, List.append_assoc]
    · rintro v' ⟨rfl⟩
      exact hvlen
  · rw [if_neg hput] at h5
    by_cases hdel : tag = TAG_DELETE
    · rw [if_pos hdel] at h5
      obtain ⟨rfl, rfl⟩ := Parser.pure_ok h5
      refine ⟨?_, ⟨hkey, fun v hv => ?_⟩, hseq⟩
      · simp only [hdel, TableEntry.encode, encodeEntry, List.append_assoc]
      · cases hv
    · rw [if_neg hdel] at h5
      cases h5

/-- **A block decodes to the entries that it encodes**, or not at all. -/
theorem decodeBlock_ok {buf : Bytes} {es : List TableEntry} (h : decodeBlock buf = .ok es) :
    buf = encodeBlock es ∧ ∀ e ∈ es, e.Fits :=
  Parser.many_ok (fun _ _ _ => decodeEntry_ok) encode_ne_nil (Nat.le_refl _) h

@[simp] theorem encodeBlock_nil : encodeBlock [] = [] := rfl

theorem encodeBlock_concat (es : List TableEntry) (e : TableEntry) :
    encodeBlock (es ++ [e]) = encodeBlock es ++ e.encode := by
  simp only [encodeBlock, List.flatMap_append, List.flatMap_cons, List.flatMap_nil, List.append_nil]

theorem encodeBlock_eq_nil {es : List TableEntry} : encodeBlock es = [] ↔ es = [] := by
  constructor
  · intro h
    cases es with
    | nil => rfl
    | cons e es => exact absurd (List.append_eq_nil_iff.mp h).1 (encode_ne_nil e)
  · rintro rfl
    rfl

/-- An entry takes at least a byte. -/
theorem length_le_encodeBlock (es : List TableEntry) : es.length ≤ (encodeBlock es).length := by
  induction es with
  | nil => exact Nat.zero_le _
  | cons e es ih =>
    have hpos := List.length_pos_iff.mpr (encode_ne_nil e)
    have hcons : encodeBlock (e :: es) = e.encode ++ encodeBlock es := rfl
    rw [hcons, List.length_append, List.length_cons]
    omega

/-! ### The index -/

/-- `BlockHandle`, and `IndexEntry` of the builder. -/
structure BlockHandle where
  firstKey : Bytes
  offset : Nat
  len : Nat
  deriving DecidableEq, Repr

def BlockHandle.encode (h : BlockHandle) : Bytes :=
  leBytes 4 h.firstKey.length ++ (h.firstKey ++ (leBytes 8 h.offset ++ leBytes 4 h.len))

def encodeIndex (index : List BlockHandle) : Bytes :=
  leBytes 4 index.length ++ index.flatMap BlockHandle.encode

def decodeHandle : Parser SsTableError BlockHandle := do
  let keyLen ← Cursor.u32
  let firstKey ← Cursor.take keyLen
  let offset ← Cursor.u64
  let len ← Cursor.u32
  pure ⟨firstKey, offset, len⟩

/-- The index block with its CRC; bytes behind the last handle are not looked at. -/
def decodeIndex (buf : Bytes) : Except SsTableError (List BlockHandle) :=
  ((do
    let count ← Cursor.u32
    Parser.times decodeHandle count).run (buf.take (buf.length - 4))).map Prod.fst

def BlockHandle.Fits (h : BlockHandle) : Prop :=
  h.firstKey.length < 2 ^ 32 ∧ h.offset < 2 ^ 64 ∧ h.len < 2 ^ 32

theorem reads_decodeHandle {h : BlockHandle} (hf : h.Fits) :
    Parser.Reads decodeHandle h.encode h := by
  obtain ⟨firstKey, offset, len⟩ := h
  obtain ⟨hk, ho, hl⟩ := hf
  refine (Parser.Reads.nat (by omega)).bind ?_
  refine (Parser.Reads.take rfl).bind ?_
  refine (Parser.Reads.nat (by omega)).bind ?_
  exact (Parser.Reads.nat (by omega)).map fun len => BlockHandle.mk firstKey offset len

theorem decodeHandle_ok {b rest : Bytes} {h : BlockHandle}
    (hd : decodeHandle b = .ok (h, rest)) : b = h.encode ++ rest ∧ h.Fits := by
  obtain ⟨keyLen, b₁, h1, hd⟩ := Parser.bind_ok hd
  obtain ⟨firstKey, b₂, h2, hd⟩ := Parser.bind_ok hd
  obtain ⟨offset, b₃, h3, hd⟩ := Parser.bind_ok hd
  obtain ⟨len, b₄, h4, hd⟩ := Parser.bind_ok hd
  obtain ⟨rfl, rfl⟩ := Parser.pure_ok hd
  obtain ⟨rfl, hkey⟩ := Parser.nat_ok h1
  obtain ⟨rfl, rfl⟩ := Parser.take_ok h2
  obtain ⟨rfl, hoffset⟩ := Parser.nat_ok h3
  obtain ⟨rfl, hlen⟩ := Parser.nat_ok h4
  refine ⟨?_, hkey, hoffset, hlen⟩
  simp only [BlockHandle.encode, List.append_assoc]

/-- No count and no field of the index is narrowed. -/
def IndexFits (index : List BlockHandle) : Prop := index.length < 2 ^ 32 ∧ ∀ x ∈ index, x.Fits

/-- **What `decodeIndex` accepts**: a body that begins with the handles. -/
theorem decodeIndex_iff {body crc : Bytes} (hcrc : crc.length = 4) {index : List BlockHandle} :
    decodeIndex (body ++ crc) = .ok index ↔
      ∃ rest, body = encodeIndex index ++ rest ∧ IndexFits index := by
  have hbody : (body ++ crc).take ((body ++ crc).length - 4) = body := by
    rw [List.length_append, hcrc, Nat.add_sub_cancel, List.take_left]
  rw [decodeIndex, hbody]
  refine Parser.map_fst_ok_iff ?_ ?_
  · rintro index ⟨hlen, h⟩
    exact (Parser.Reads.nat (by omega)).bind (.times index fun x hx => reads_decodeHandle (h x hx))
  · intro b index rest hd
    obtain ⟨count, b₁, h1, h2⟩ := Parser.bind_ok hd
    obtain ⟨rfl, hcount⟩ := Parser.nat_ok h1
    obtain ⟨rfl, rfl, hfits⟩ := Parser.times_ok (fun _ _ _ => decodeHandle_ok) h2
    refine ⟨?_, hcount, hfits⟩
    rw [encodeIndex, List.append_assoc]

theorem decodeIndex_encodeIndex {index : List BlockHandle} {crc : Bytes} (hcrc : crc.length = 4)
    (hlen : index.length < 2 ^ 32) (h : ∀ x ∈ index, x.Fits) :
    decodeIndex (encodeIndex index ++ crc) = .ok index :=
  (decodeIndex_iff hcrc).mpr ⟨[], (List.append_nil _).symm, hlen, h⟩

/-! ### The footer -/

structure Footer where
  indexOff : Nat
  indexLen : Nat
  bloomOff : Nat
  bloomLen : Nat
  numEntries : Nat

def Footer.encode (f : Footer) : Bytes :=
  leBytes 8 FOOTER_MAGIC ++ (leBytes 4 FORMAT_VERSION ++ (leBytes 8 f.indexOff ++
    (leBytes 4 f.indexLen ++ (leBytes 8 f.bloomOff ++ (leBytes 4 f.bloomLen ++
      leBytes 8 f.numEntries)))))

def decodeFooter : Parser SsTableError Footer := do
  let magic ← Cursor.u64
  Cursor.ensure (magic = FOOTER_MAGIC) (.corrupt "footer magic mismatch")
  let version ← Cursor.u32
  Cursor.ensure (version = FORMAT_VERSION) (.corrupt s!"unsupported format version {version}")
  let indexOff ← Cursor.u64
  let indexLen ← Cursor.u32
  let bloomOff ← Cursor.u64
  let bloomLen ← Cursor.u32
  let numEntries ← Cursor.u64
  pure ⟨indexOff, indexLen, bloomOff, bloomLen, numEntries⟩

structure Footer.Fits (f : Footer) : Prop where
  indexOff : f.indexOff < 2 ^ 64
  indexLen : f.indexLen < 2 ^ 32
  bloomOff : f.bloomOff < 2 ^ 64
  bloomLen : f.bloomLen < 2 ^ 32
  numEntries : f.numEntries < 2 ^ 64

theorem reads_decodeFooter {f : Footer} (h : f.Fits) : Parser.Reads decodeFooter f.encode f := by
  obtain ⟨indexOff, indexLen, bloomOff, bloomLen, numEntries⟩ := f
  obtain ⟨h1, h2, h3, h4, h5⟩ := h
  refine (Parser.Reads.nat (by decide)).bind ?_
  refine (Cursor.reads_ensure rfl).bind (y := _) ?_
  refine (Parser.Reads.nat (by decide)).bind ?_
  refine (Cursor.reads_ensure rfl).bind (y := _) ?_
  refine (Parser.Reads.nat (by omega)).bind ?_
  refine (Parser.Reads.nat (by omega)).bind ?_
  refine (Parser.Reads.nat (by omega)).bind ?_
  refine (Parser.Reads.nat (by omega)).bind ?_
  exact (Parser.Reads.nat (by omega)).map
    fun numEntries => Footer.mk indexOff indexLen bloomOff bloomLen numEntries

theorem length_footer (f : Footer) : f.encode.length + 4 = FOOTER_SIZE := by
  simp only [Footer.encode, List.length_append, length_leBytes]
  rfl

/-! ### Checksums and regions -/

/-- `{n:#010x}`. -/
def hex32 (n : UInt32) : String :=
  "0x" ++ String.ofList (List.leftpad 8 '0' (Nat.toDigits 16 n.toNat))

section Checked

variable [Hashing]

/-- A structure with its CRC behind it. -/
def withCrc (body : Bytes) : Bytes := body ++ leBytes 4 (Hashing.crc32 body).toNat

theorem length_withCrc (body : Bytes) : (withCrc body).length = body.length + 4 := by
  rw [withCrc, List.length_append, length_leBytes]

def verifyCrc (buf : Bytes) (what : String) : Except SsTableError Unit :=
  if buf.length < 4 then .error (.corrupt s!"{what} too short for a crc")
  else
    let body := buf.take (buf.length - 4)
    let stored := UInt32.ofNat (leNat (buf.drop (buf.length - 4)))
    let actual := Hashing.crc32 body
    if stored ≠ actual then
      .error (.corrupt s!"{what} crc mismatch: stored {hex32 stored}, computed {hex32 actual}")
    else .ok ()

theorem take_withCrc (body : Bytes) : (withCrc body).take ((withCrc body).length - 4) = body := by
  rw [length_withCrc, Nat.add_sub_cancel, withCrc, List.take_left]

theorem verifyCrc_withCrc (body : Bytes) (what : String) :
    verifyCrc (withCrc body) what = .ok () := by
  have hlen : ¬ (withCrc body).length < 4 := by
    rw [length_withCrc]
    omega
  have hdrop : (withCrc body).drop ((withCrc body).length - 4) =
      leBytes 4 (Hashing.crc32 body).toNat := by
    rw [length_withCrc, Nat.add_sub_cancel, withCrc, List.drop_left]
  have hlt : (Hashing.crc32 body).toNat < 256 ^ 4 := (Hashing.crc32 body).toNat_lt
  rw [verifyCrc, if_neg hlen]
  simp only [hdrop, take_withCrc, leNat_leBytes_of_lt hlt, UInt32.ofNat_toNat, ne_eq,
    not_true_eq_false, if_false]

/-- A buffer whose last four bytes are the CRC of the bytes before them. -/
theorem eq_withCrc {buf : Bytes} (hlen : ¬ buf.length < 4)
    (hcrc : UInt32.ofNat (leNat (buf.drop (buf.length - 4))) =
      Hashing.crc32 (buf.take (buf.length - 4))) :
    buf = withCrc (buf.take (buf.length - 4)) := by
  have hfour : (buf.drop (buf.length - 4)).length = 4 := by
    rw [List.length_drop]
    omega
  have hlt := leNat_lt (buf.drop (buf.length - 4))
  have hback := leBytes_leNat (buf.drop (buf.length - 4))
  rw [hfour] at hlt hback
  have hmod : leNat (buf.drop (buf.length - 4)) % 2 ^ 32 = leNat (buf.drop (buf.length - 4)) :=
    Nat.mod_eq_of_lt hlt
  rw [withCrc, ← hcrc, UInt32.toNat_ofNat', hmod, hback, List.take_append_drop]

/-- **A changed byte shows**, in the body as well as in the CRC. -/
theorem withCrc_set (hd : DetectsByte Hashing.crc32) {body : Bytes} {i : Nat} {x : UInt8}
    (hi : i < (withCrc body).length) (hx : x ≠ (withCrc body)[i]) :
    ∃ body' crc, (withCrc body).set i x = body' ++ crc ∧ crc.length = 4 ∧
      UInt32.ofNat (leNat crc) ≠ Hashing.crc32 body' := by
  have hcrc := length_leBytes 4 (Hashing.crc32 body).toNat
  have hval : leNat (leBytes 4 (Hashing.crc32 body).toNat) = (Hashing.crc32 body).toNat :=
    leNat_leBytes_of_lt (Hashing.crc32 body).toNat_lt
  by_cases hb : i < body.length
  · refine ⟨body.set i x, leBytes 4 (Hashing.crc32 body).toNat, List.set_append_left _ _ hb, hcrc,
      fun h => hx ?_⟩
    rw [hval, UInt32.ofNat_toNat] at h
    rw [hd.set hb h.symm]
    exact (List.getElem_append_left hb).symm
  · have hle : body.length ≤ i := Nat.le_of_not_lt hb
    have hlen : ((leBytes 4 (Hashing.crc32 body).toNat).set (i - body.length) x).length = 4 := by
      rw [List.length_set, hcrc]
    refine ⟨body, (leBytes 4 (Hashing.crc32 body).toNat).set (i - body.length) x,
      List.set_append_right _ _ hle, hlen, fun h => hx ?_⟩
    -- the stored CRC has the value it had, so the byte is the one it was
    have hlt : leNat ((leBytes 4 (Hashing.crc32 body).toNat).set (i - body.length) x) < 2 ^ 32 := by
      have hb := leNat_lt ((leBytes 4 (Hashing.crc32 body).toNat).set (i - body.length) x)
      rwa [hlen] at hb
    have hnat := congrArg UInt32.toNat h
    rw [UInt32.toNat_ofNat', Nat.mod_eq_of_lt hlt] at hnat
    have hsame := leNat_inj (hlen.trans hcrc.symm) (hnat.trans hval.symm)
    have hj : i - body.length < (leBytes 4 (Hashing.crc32 body).toNat).length := by
      rw [length_withCrc] at hi
      omega
    have hget := List.getElem?_set_self (a := x) hj
    rw [hsame] at hget
    have hright : (withCrc body)[i]? = some x := (List.getElem?_append_right hle).trans hget
    rw [List.getElem?_eq_getElem hi] at hright
    exact (Option.some.inj hright).symm

theorem verifyCrc_append {body crc : Bytes} (hc : crc.length = 4)
    (hne : UInt32.ofNat (leNat crc) ≠ Hashing.crc32 body) (what : String) :
    ∃ msg, verifyCrc (body ++ crc) what = .error (.corrupt msg) := by
  have hlen : (body ++ crc).length - 4 = body.length := by
    rw [List.length_append, hc, Nat.add_sub_cancel]
  have hlong : ¬ (body ++ crc).length < 4 := by
    rw [List.length_append, hc]
    omega
  rw [verifyCrc, if_neg hlong]
  simp only [hlen, List.take_left, List.drop_left, if_pos hne]
  exact ⟨_, rfl⟩

/-- A changed byte makes the check fail. -/
theorem verifyCrc_set (hd : DetectsByte Hashing.crc32) {body : Bytes} {i : Nat} {x : UInt8}
    (hi : i < (withCrc body).length) (hx : x ≠ (withCrc body)[i]) (what : String) :
    ∃ msg, verifyCrc ((withCrc body).set i x) what = .error (.corrupt msg) := by
  obtain ⟨body', crc, hset, hc, hne⟩ := withCrc_set hd hi hx
  rw [hset]
  exact verifyCrc_append hc hne what

end Checked

/-- `check_region`, with the saturating addition of the source. -/
def checkRegion (offset len limit : Nat) (what : String) : Except SsTableError Unit :=
  if min (offset + len) (2 ^ 64 - 1) > limit then
    .error (.corrupt s!"{what} region [{offset}, +{len}) runs past data limit {limit}")
  else .ok ()

theorem checkRegion_of_le {offset len limit : Nat} (h : offset + len ≤ limit) (what : String) :
    checkRegion offset len limit what = .ok () := by
  rw [checkRegion, if_neg]
  omega

end AccretionDb
