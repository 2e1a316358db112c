import AccretionDb.Compaction.Table
import AccretionDb.Wal.Recovery

/-! # Log records

A payload of the log is one write: its sequence number, a tag, the key, and the value
if there is one.  Both lengths are narrowed to 32 bits, as is the length of the
payload in its frame, and nothing on the way of a write looks at them.  A record comes
back through frame and codec exactly if it fits the frame's field (`reversible_iff`).
-/

namespace AccretionDb

open CrashLogic

inductive DbError
  | storage (e : StorageError)
  | ssTable (e : SsTableError)
  | manifest (e : ManifestError)
  | compaction (e : CompactionError)
  deriving DecidableEq, Repr

def REC_TAG_DELETE : Nat := 0
def REC_TAG_PUT : Nat := 1

/-- One decoded record. -/
structure Record where
  seq : Nat
  key : Bytes
  value : InternalValue
  deriving DecidableEq

/-- The record of a write. -/
def Record.of (seq : Nat) (key : Bytes) (kind : ValueKind) : Record := ⟨seq, key, ⟨seq, kind⟩⟩

def encodeRecord (seq : Nat) (key : Bytes) (kind : ValueKind) : Bytes :=
  leBytes 8 seq ++
    match kind with
    | .value v =>
      leBytes 1 REC_TAG_PUT ++ (leBytes 4 key.length ++ (key ++ (leBytes 4 v.length ++ v)))
    | .tombstone => leBytes 1 REC_TAG_DELETE ++ (leBytes 4 key.length ++ key)

/-- The `corrupt` of `decode_record`. -/
def corruptRecord (m : String) : DbError := .ssTable (.corrupt ("wal record: " ++ m))

namespace RecordReader

/-- `take` on a payload that is too short. -/
def short (_ _ : Nat) : DbError := corruptRecord "truncated"

abbrev take (n : Nat) : Parser DbError Bytes := Parser.take short n
abbrev u8 : Parser DbError Nat := Parser.nat short 1
abbrev u32 : Parser DbError Nat := Parser.nat short 4
abbrev u64 : Parser DbError Nat := Parser.nat short 8

end RecordReader

/-- The value behind the key. -/
def decodeKind (tag : Nat) : Parser DbError ValueKind :=
  if tag = REC_TAG_PUT then do
    let vlen ← RecordReader.u32
    let value ← RecordReader.take vlen
    pure (.value value)
  else if tag = REC_TAG_DELETE then pure .tombstone
  else throw (corruptRecord s!"unknown tag {tag}")

def readRecord : Parser DbError Record := do
  let seq ← RecordReader.u64
  let tag ← RecordReader.u8
  let klen ← RecordReader.u32
  let key ← RecordReader.take klen
  let kind ← decodeKind tag
  pure (Record.of seq key kind)

/-- Bytes behind the last field are not looked at. -/
def decodeRecord (buf : Bytes) : Except DbError Record := (readRecord.run buf).map Prod.fst

/-! ### Records that fit -/

/-- How many bytes a record's value takes. -/
def kindLen : ValueKind → Nat
  | .value v => 4 + v.length
  | .tombstone => 0

theorem length_encodeRecord (seq : Nat) (key : Bytes) (kind : ValueKind) :
    (encodeRecord seq key kind).length = 13 + key.length + kindLen kind := by
  cases kind <;>
    simp only [encodeRecord, kindLen, List.length_append, length_leBytes] <;> omega

/-- No field of the record is narrowed. -/
structure RecordFits (seq : Nat) (key : Bytes) (kind : ValueKind) : Prop where
  seq : seq < 2 ^ 64
  key : key.length < 2 ^ 32
  value : ∀ v, kind = .value v → v.length < 2 ^ 32

theorem RecordFits.of_length {seq : Nat} {key : Bytes} {kind : ValueKind} (hs : seq < 2 ^ 64)
    (hlen : (encodeRecord seq key kind).length < 2 ^ 32) : RecordFits seq key kind := by
  rw [length_encodeRecord] at hlen
  refine ⟨hs, by omega, ?_⟩
  rintro v rfl
  rw [kindLen] at hlen
  omega

theorem reads_readRecord {seq : Nat} {key : Bytes} {kind : ValueKind}
    (hfit : RecordFits seq key kind) :
    Parser.Reads readRecord (encodeRecord seq key kind) (Record.of seq key kind) := by
  obtain ⟨hs, hk, hv⟩ := hfit
  refine (Parser.Reads.nat (by omega)).bind ?_
  cases kind with
  | value v =>
    have hvl := hv v rfl
    refine (Parser.Reads.nat (by decide)).bind ?_
    refine (Parser.Reads.nat (by omega)).bind ?_
    refine (Parser.Reads.take rfl).bind ?_
    have hval : Parser.Reads (decodeKind REC_TAG_PUT) (leBytes 4 v.length ++ v) (.value v) := by
      rw [decodeKind, if_pos rfl]
      refine (Parser.Reads.nat (by omega)).bind ?_
      exact (Parser.Reads.take rfl).map ValueKind.value
    exact hval.map fun kind => Record.of seq key kind
  | tombstone =>
    have hval : Parser.Reads (decodeKind REC_TAG_DELETE) [] .tombstone := by
      rw [decodeKind, if_neg (by decide), if_pos rfl]
      exact .pure _
    refine (Parser.Reads.nat (by decide)).bind ?_
    refine (Parser.Reads.nat (by omega)).bind ?_
    rw [← List.append_nil key]
    refine (Parser.Reads.take (by rw [List.append_nil])).bind ?_
    rw [List.append_nil]
    exact hval.map fun kind => Record.of seq key kind

/-- **Encoding a record is reversible** as long as it fits a frame. -/
theorem decodeRecord_encodeRecord {seq : Nat} {key : Bytes} {kind : ValueKind}
    (hs : seq < 2 ^ 64) (hlen : (encodeRecord seq key kind).length < 2 ^ 32) :
    decodeRecord (encodeRecord seq key kind) = .ok (Record.of seq key kind) := by
  rw [decodeRecord, StateT.run, (reads_readRecord (.of_length hs hlen)).run]
  rfl

theorem readRecord_ok {buf rest : Bytes} {r : Record} (h : readRecord buf = .ok (r, rest)) :
    buf = encodeRecord r.seq r.key r.value.kind ++ rest ∧
      (r = Record.of r.seq r.key r.value.kind ∧ RecordFits r.seq r.key r.value.kind) := by
  obtain ⟨seq, b₁, h1, h⟩ := Parser.bind_ok h
  obtain ⟨tag, b₂, h2, h⟩ := Parser.bind_ok h
  obtain ⟨klen, b₃, h3, h⟩ := Parser.bind_ok h
  obtain ⟨key, b₄, h4, h⟩ := Parser.bind_ok h
  obtain ⟨kind, b₅, h5, h⟩ := Parser.bind_ok h
  obtain ⟨rfl, rfl⟩ := Parser.pure_ok h
  obtain ⟨rfl, hseq⟩ := Parser.nat_ok h1
  obtain ⟨rfl, -⟩ := Parser.nat_ok h2
  obtain ⟨rfl, hklen⟩ := Parser.nat_ok h3
  obtain ⟨rfl, rfl⟩ := Parser.take_ok h4
  rw [decodeKind] at h5
  by_cases hput : tag = REC_TAG_PUT
  · rw [if_pos hput] at h5
    obtain ⟨vlen, b₆, h6, h5⟩ := Parser.bind_ok h5
    obtain ⟨v, b₇, h7, h5⟩ := Parser.bind_ok h5
    obtain ⟨rfl, rfl⟩ := Parser.pure_ok h5
    obtain ⟨rfl, hvlen⟩ := Parser.nat_ok h6
    obtain ⟨rfl, rfl⟩ := Parser.take_ok h7
    refine ⟨?_, rfl, hseq, hklen, ?_⟩
    · simp only [hput, Record.of, encodeRecord, List.append_assoc]
    · rintro v' ⟨rfl⟩
      exact hvlen
  · rw [if_neg hput] at h5
    by_cases hdel : tag = REC_TAG_DELETE
    · rw [if_pos hdel] at h5
      obtain ⟨rfl, rfl⟩ := Parser.pure_ok h5
      refine ⟨?_, rfl, hseq, hklen, fun v hv => ?_⟩
      · simp only [hdel, Record.of, encodeRecord, List.append_assoc]
      · cases hv
    · rw [if_neg hdel] at h5
      cases h5

/-- **What `decodeRecord` accepts**: a payload that begins with the record. -/
theorem decodeRecord_iff {buf : Bytes} {r : Record} :
    decodeRecord buf = .ok r ↔ ∃ rest, buf = encodeRecord r.seq r.key r.value.kind ++ rest ∧
      (r = Record.of r.seq r.key r.value.kind ∧ RecordFits r.seq r.key r.value.kind) := by
  have hreads : ∀ r : Record, r = Record.of r.seq r.key r.value.kind ∧
      RecordFits r.seq r.key r.value.kind →
        Parser.Reads readRecord (encodeRecord r.seq r.key r.value.kind) r := by
    rintro r ⟨hr, hfit⟩
    have h := reads_readRecord hfit
    rwa [← hr] at h
  exact Parser.map_fst_ok_iff hreads fun b r rest h => readRecord_ok h

theorem decodeRecord_ok {buf : Bytes} {r : Record} (h : decodeRecord buf = .ok r) :
    ∃ rest, buf = encodeRecord r.seq r.key r.value.kind ++ rest ∧
      r = Record.of r.seq r.key r.value.kind := by
  obtain ⟨rest, hbuf, hr, -⟩ := decodeRecord_iff.mp h
  exact ⟨rest, hbuf, hr⟩

/-! ### Records in frames -/

section Framed

variable [Hashing]

/-- Wherever the framed record of a write lies, `decode` at its offset and
`decodeRecord` give the write back, and the frame behind it decodes. -/
def Reversible (seq : Nat) (key : Bytes) (kind : ValueKind) : Prop :=
  ∀ before after, ∃ f,
    Wal.decode (before ++ Wal.encode (encodeRecord seq key kind) ++ after) before.length = .ok f ∧
    decodeRecord f.payload = .ok (Record.of seq key kind) ∧
    ∀ p rest, after = Wal.encode p ++ rest → p.length < 2 ^ 32 →
      Wal.decode (before ++ Wal.encode (encodeRecord seq key kind) ++ after)
        (before.length + f.totalLen) = .ok ⟨p, Wal.HEADER_SZ + p.length⟩

/-- **A record is reversible exactly if its length fits the field of a frame.** -/
theorem reversible_iff {seq : Nat} (hs : seq < 2 ^ 64) (key : Bytes) (kind : ValueKind) :
    Reversible seq key kind ↔ (encodeRecord seq key kind).length < 2 ^ 32 := by
  constructor
  · intro h
    obtain ⟨f, hf, hrec, -⟩ := h [] []
    obtain ⟨rest, hbuf, -⟩ := decodeRecord_ok hrec
    have hlt := (Wal.decode_eq_ok hf).2.2
    rw [hbuf, List.length_append] at hlt
    exact Nat.lt_of_le_of_lt (Nat.le_add_right _ _) hlt
  · intro hlen before after
    have hat := Wal.decode_append before (Wal.encode (encodeRecord seq key kind) ++ after) 0
    rw [Nat.add_zero, Wal.decode_encode hlen, ← List.append_assoc] at hat
    refine ⟨_, hat, decodeRecord_encodeRecord hs hlen, fun p rest hafter hp => ?_⟩
    have hframe : before.length + (Wal.HEADER_SZ + (encodeRecord seq key kind).length) =
        (before ++ Wal.encode (encodeRecord seq key kind)).length + 0 := by
      rw [List.length_append, Wal.length_encode, Nat.add_zero]
    rw [hframe, Wal.decode_append, hafter, Wal.decode_encode hp]

end Framed

/-! ### What the decoders accept

A field is spelled in one way only, and it is checked that enough bytes are left for it.
Nobody checks that none are left in the end: of a record, a manifest and an index, the
bytes behind the last field are not looked at.
-/

section Accepted

variable [Hashing]

/-- **A decoder accepts what its encoder writes, with any bytes behind it**, and nothing
else.  In a manifest these bytes stand in front of the CRC, which covers them. -/
theorem decoders_accept :
    (∀ (b : Bytes) (r : Record), decodeRecord b = .ok r ↔
      ∃ rest, b = encodeRecord r.seq r.key r.value.kind ++ rest ∧
        (r = Record.of r.seq r.key r.value.kind ∧ RecordFits r.seq r.key r.value.kind)) ∧
    (∀ (b : Bytes) (v : Version), decodeVersion b = .ok v ↔
      ∃ rest, b = withCrc (encodeBody v ++ rest) ∧ (v.Words ∧ v.LengthsFit)) ∧
    ∀ (body : Bytes) (crc : Nat) (index : List BlockHandle),
      decodeIndex (body ++ leBytes 4 crc) = .ok index ↔
        ∃ rest, body = encodeIndex index ++ rest ∧ IndexFits index :=
  ⟨fun _ _ => decodeRecord_iff, fun _ _ => decodeVersion_iff,
    fun _ crc _ => decodeIndex_iff (length_leBytes 4 crc)⟩

end Accepted

/-- One more byte, behind a deletion, behind an empty version and behind an empty index. -/
theorem decoders_accept_more : letI := Hashing.ieee fun _ => 0
    (decodeRecord (encodeRecord 1 [] .tombstone ++ [0]) = .ok (Record.of 1 [] .tombstone) ∧
      encodeRecord 1 [] .tombstone ≠ encodeRecord 1 [] .tombstone ++ [0]) ∧
    (decodeVersion (withCrc (encodeBody .empty ++ [0])) = .ok .empty ∧
      encodeVersion .empty ≠ withCrc (encodeBody .empty ++ [0])) ∧
    decodeIndex (encodeIndex [] ++ [0] ++ leBytes 4 0) = .ok [] ∧
      encodeIndex [] ≠ encodeIndex [] ++ [0] := by
  let hash := Hashing.ieee fun _ => 0
  refine ⟨⟨?_, by decide⟩, ⟨?_, ?_⟩, ?_, by decide⟩
  · exact decodeRecord_iff.mpr ⟨[0], rfl, rfl, by decide, by decide, fun _ h => by cases h⟩
  · exact decodeVersion_iff.mpr ⟨[0], rfl, Version.words_empty, Version.lengthsFit_empty⟩
  · intro h
    have hlen := congrArg List.length h
    rw [encodeVersion, length_withCrc, length_withCrc, List.length_append] at hlen
    rw [List.length_singleton] at hlen
    omega
  · have hfits : IndexFits [] := ⟨by decide, fun x hx => absurd hx List.not_mem_nil⟩
    exact (decodeIndex_iff (length_leBytes 4 0)).mpr ⟨[0], rfl, hfits⟩

end AccretionDb
