import AccretionDb.Manifest.Version
import AccretionDb.SsTable.Format

/-! # The manifest file

One version as bytes: the magic tag, the format, the two counters, and for every tier
its tables, with a CRC behind it all.  Counters are words of 64 bits, and a count or a
length is narrowed to 32; where none is narrowed, the decoder gives back the version
that was encoded (`decodeVersion_encodeVersion`).
-/

namespace AccretionDb

open CrashLogic

inductive ManifestError
  | storage (e : StorageError)
  | corrupt (message : String)
  deriving DecidableEq, Repr

def MANIFEST_MAGIC : Nat := 0x414343525F4D4652
def MANIFEST_FORMAT : Nat := 1

/-! ### Encoding -/

/-- `put_bytes`. -/
def putBytes (b : Bytes) : Bytes := leBytes 4 b.length ++ b

def TableMeta.encode (table : TableMeta) : Bytes :=
  leBytes 8 table.id ++ (leBytes 8 table.numEntries ++
    (putBytes table.firstKey ++ putBytes table.lastKey))

def encodeTier (tier : List TableMeta) : Bytes :=
  leBytes 4 tier.length ++ tier.flatMap TableMeta.encode

/-- What stands in front of the CRC. -/
def encodeBody (v : Version) : Bytes :=
  leBytes 8 MANIFEST_MAGIC ++ (leBytes 4 MANIFEST_FORMAT ++ (leBytes 8 v.nextSeq ++
    (leBytes 8 v.nextTableId ++ (leBytes 4 v.tiers.length ++ v.tiers.flatMap encodeTier))))

def encodeVersion [Hashing] (v : Version) : Bytes := withCrc (encodeBody v)

/-! ### Decoding -/

namespace Reader

/-- `Reader::take` on a buffer that is too short. -/
def short (need have_ : Nat) : ManifestError :=
  .corrupt s!"unexpected end: need {need}, have {have_}"

abbrev take (n : Nat) : Parser ManifestError Bytes := Parser.take short n
abbrev u32 : Parser ManifestError Nat := Parser.nat short 4
abbrev u64 : Parser ManifestError Nat := Parser.nat short 8

def bytes : Parser ManifestError Bytes := do
  let n ← u32
  take n

end Reader

def decodeTable : Parser ManifestError TableMeta := do
  let id ← Reader.u64
  let numEntries ← Reader.u64
  let firstKey ← Reader.bytes
  let lastKey ← Reader.bytes
  pure ⟨id, numEntries, firstKey, lastKey⟩

def decodeTier : Parser ManifestError (List TableMeta) := do
  let numTables ← Reader.u32
  Parser.times decodeTable numTables

/-- The counters and the tiers. -/
def decodeLayout : Parser ManifestError Version := do
  let nextSeq ← Reader.u64
  let nextTableId ← Reader.u64
  let numTiers ← Reader.u32
  let tiers ← Parser.times decodeTier numTiers
  pure ⟨tiers, nextSeq, nextTableId⟩

def decodeBody : Parser ManifestError Version := do
  let magic ← Reader.u64
  if magic ≠ MANIFEST_MAGIC then throw (.corrupt "magic mismatch")
  else do
    let format ← Reader.u32
    if format ≠ MANIFEST_FORMAT then throw (.corrupt s!"unsupported format {format}")
    else decodeLayout

/-- Bytes behind the last table are not looked at. -/
def decodeVersion [Hashing] (buf : Bytes) : Except ManifestError Version :=
  if buf.length < 4 then .error (.corrupt "shorter than a crc")
  else
    let body := buf.take (buf.length - 4)
    let stored := UInt32.ofNat (leNat (buf.drop (buf.length - 4)))
    let actual := Hashing.crc32 body
    if stored ≠ actual then
      .error (.corrupt s!"crc mismatch: stored {hex32 stored}, computed {hex32 actual}")
    else (decodeBody.run body).map Prod.fst

/-! ### What fits -/

/-- The numbers are words of 64 bits, as their types say. -/
structure Version.Words (v : Version) : Prop where
  nextSeq : v.nextSeq < 2 ^ 64
  nextTableId : v.nextTableId < 2 ^ 64
  tables : ∀ table ∈ v.allTables, table.id < 2 ^ 64 ∧ table.numEntries < 2 ^ 64

/-- No count and no length is narrowed. -/
structure Version.LengthsFit (v : Version) : Prop where
  tiers : v.tiers.length < 2 ^ 32
  tier : ∀ tier ∈ v.tiers, tier.length < 2 ^ 32
  keys : ∀ table ∈ v.allTables,
    table.firstKey.length < 2 ^ 32 ∧ table.lastKey.length < 2 ^ 32

instance (v : Version) : Decidable v.LengthsFit :=
  decidable_of_iff (v.tiers.length < 2 ^ 32 ∧ (∀ tier ∈ v.tiers, tier.length < 2 ^ 32) ∧
      ∀ table ∈ v.allTables, table.firstKey.length < 2 ^ 32 ∧ table.lastKey.length < 2 ^ 32)
    ⟨fun ⟨h1, h2, h3⟩ => ⟨h1, h2, h3⟩, fun h => ⟨h.tiers, h.tier, h.keys⟩⟩

theorem Version.words_empty : Version.empty.Words :=
  ⟨by decide, by decide, fun _ ht => absurd ht List.not_mem_nil⟩

theorem Version.lengthsFit_empty : Version.empty.LengthsFit :=
  ⟨by decide, fun _ ht => absurd ht List.not_mem_nil, fun _ ht => absurd ht List.not_mem_nil⟩

/-! ### Round trip -/

theorem reads_bytes {b : Bytes} (h : b.length < 2 ^ 32) :
    Parser.Reads Reader.bytes (putBytes b) b :=
  (Parser.Reads.nat (by omega)).bind (.take rfl)

theorem reads_decodeTable {table : TableMeta} (hid : table.id < 2 ^ 64)
    (hn : table.numEntries < 2 ^ 64) (hfirst : table.firstKey.length < 2 ^ 32)
    (hlast : table.lastKey.length < 2 ^ 32) :
    Parser.Reads decodeTable table.encode table := by
  obtain ⟨id, numEntries, firstKey, lastKey⟩ := table
  refine (Parser.Reads.nat (by omega)).bind ?_
  refine (Parser.Reads.nat (by omega)).bind ?_
  refine (reads_bytes hfirst).bind ?_
  exact (reads_bytes hlast).map fun lastKey => TableMeta.mk id numEntries firstKey lastKey

theorem reads_decodeLayout {v : Version} (hw : v.Words) (hf : v.LengthsFit) :
    Parser.Reads decodeLayout (leBytes 8 v.nextSeq ++ (leBytes 8 v.nextTableId ++
      (leBytes 4 v.tiers.length ++ v.tiers.flatMap encodeTier))) v := by
  obtain ⟨tiers, nextSeq, nextTableId⟩ := v
  obtain ⟨hseq, hid, htables⟩ := hw
  obtain ⟨htiers, htier, hkeys⟩ := hf
  have hreads : ∀ tier ∈ tiers, Parser.Reads decodeTier (encodeTier tier) tier := by
    intro tier ht
    have hlt := htier tier ht
    refine (Parser.Reads.nat (by omega)).bind (.times tier fun table hm => ?_)
    have hmem : table ∈ tiers.flatten := List.mem_flatten_of_mem ht hm
    exact reads_decodeTable (htables table hmem).1 (htables table hmem).2 (hkeys table hmem).1
      (hkeys table hmem).2
  dsimp only at hseq hid htiers
  refine (Parser.Reads.nat (by omega)).bind ?_
  refine (Parser.Reads.nat (by omega)).bind ?_
  refine (Parser.Reads.nat (by omega)).bind ?_
  exact (Parser.Reads.times tiers hreads).map fun tiers => Version.mk tiers nextSeq nextTableId

theorem readerBytes_ok {b rest x : Bytes} (h : Reader.bytes b = .ok (x, rest)) :
    b = putBytes x ++ rest ∧ x.length < 2 ^ 32 := by
  obtain ⟨n, b₁, h1, h2⟩ := Parser.bind_ok h
  obtain ⟨rfl, hlt⟩ := Parser.nat_ok h1
  obtain ⟨rfl, rfl⟩ := Parser.take_ok h2
  exact ⟨by rw [putBytes, List.append_assoc], hlt⟩

/-- No field of a table's record is narrowed. -/
def TableMeta.Fits (table : TableMeta) : Prop :=
  (table.id < 2 ^ 64 ∧ table.numEntries < 2 ^ 64) ∧
    (table.firstKey.length < 2 ^ 32 ∧ table.lastKey.length < 2 ^ 32)

theorem decodeTable_ok {b rest : Bytes} {table : TableMeta}
    (h : decodeTable b = .ok (table, rest)) : b = table.encode ++ rest ∧ table.Fits := by
  obtain ⟨id, b₁, h1, h⟩ := Parser.bind_ok h
  obtain ⟨numEntries, b₂, h2, h⟩ := Parser.bind_ok h
  obtain ⟨firstKey, b₃, h3, h⟩ := Parser.bind_ok h
  obtain ⟨lastKey, b₄, h4, h⟩ := Parser.bind_ok h
  obtain ⟨rfl, rfl⟩ := Parser.pure_ok h
  obtain ⟨rfl, hid⟩ := Parser.nat_ok h1
  obtain ⟨rfl, hn⟩ := Parser.nat_ok h2
  obtain ⟨rfl, hfirst⟩ := readerBytes_ok h3
  obtain ⟨rfl, hlast⟩ := readerBytes_ok h4
  refine ⟨?_, ⟨hid, hn⟩, hfirst, hlast⟩
  simp only [TableMeta.encode, List.append_assoc]

theorem decodeTier_ok {b rest : Bytes} {tier : List TableMeta}
    (h : decodeTier b = .ok (tier, rest)) :
    b = encodeTier tier ++ rest ∧ (tier.length < 2 ^ 32 ∧ ∀ table ∈ tier, table.Fits) := by
  obtain ⟨n, b₁, h1, h2⟩ := Parser.bind_ok h
  obtain ⟨rfl, hn⟩ := Parser.nat_ok h1
  obtain ⟨rfl, rfl, hfits⟩ := Parser.times_ok (fun _ _ _ => decodeTable_ok) h2
  exact ⟨by rw [encodeTier, List.append_assoc], hn, hfits⟩

/-- The counters and the tiers as bytes. -/
def encodeLayout (v : Version) : Bytes :=
  leBytes 8 v.nextSeq ++ (leBytes 8 v.nextTableId ++
    (leBytes 4 v.tiers.length ++ v.tiers.flatMap encodeTier))

theorem decodeLayout_ok {b rest : Bytes} {v : Version} (h : decodeLayout b = .ok (v, rest)) :
    b = encodeLayout v ++ rest ∧ (v.Words ∧ v.LengthsFit) := by
  obtain ⟨nextSeq, b₁, h1, h⟩ := Parser.bind_ok h
  obtain ⟨nextTableId, b₂, h2, h⟩ := Parser.bind_ok h
  obtain ⟨numTiers, b₃, h3, h⟩ := Parser.bind_ok h
  obtain ⟨tiers, b₄, h4, h⟩ := Parser.bind_ok h
  obtain ⟨rfl, rfl⟩ := Parser.pure_ok h
  obtain ⟨rfl, hseq⟩ := Parser.nat_ok h1
  obtain ⟨rfl, hid⟩ := Parser.nat_ok h2
  obtain ⟨rfl, hn⟩ := Parser.nat_ok h3
  obtain ⟨rfl, rfl, htiers⟩ := Parser.times_ok (fun _ _ _ => decodeTier_ok) h4
  have htable : ∀ table ∈ tiers.flatten, table.Fits := by
    intro table ht
    obtain ⟨tier, htier, hmem⟩ := List.mem_flatten.mp ht
    exact (htiers tier htier).2 table hmem
  refine ⟨?_, ⟨hseq, hid, fun table ht => (htable table ht).1⟩, hn,
    fun tier ht => (htiers tier ht).1, fun table ht => (htable table ht).2⟩
  simp only [encodeLayout, List.append_assoc]

theorem decodeBody_ok {b rest : Bytes} {v : Version} (h : decodeBody b = .ok (v, rest)) :
    b = encodeBody v ++ rest ∧ (v.Words ∧ v.LengthsFit) := by
  obtain ⟨magic, b₁, h1, h2⟩ := Parser.bind_ok h
  obtain ⟨rfl, -⟩ := Parser.nat_ok h1
  by_cases hmagic : magic ≠ MANIFEST_MAGIC
  · rw [if_pos hmagic] at h2
    cases h2
  · rw [if_neg hmagic] at h2
    obtain ⟨format, b₂, h3, h4⟩ := Parser.bind_ok h2
    obtain ⟨rfl, -⟩ := Parser.nat_ok h3
    by_cases hformat : format ≠ MANIFEST_FORMAT
    · rw [if_pos hformat] at h4
      cases h4
    · rw [if_neg hformat] at h4
      obtain ⟨rfl, hv⟩ := decodeLayout_ok h4
      rw [not_not.mp hmagic, not_not.mp hformat]
      refine ⟨?_, hv⟩
      simp only [encodeBody, encodeLayout, List.append_assoc]

/-- Behind the right tag and format come the counters and the tiers. -/
theorem decodeBody_tagged (b : Bytes) :
    decodeBody.run (leBytes 8 MANIFEST_MAGIC ++ (leBytes 4 MANIFEST_FORMAT ++ b)) =
      decodeLayout.run b := by
  have hmagic : Parser.Reads Reader.u64 (leBytes 8 MANIFEST_MAGIC) MANIFEST_MAGIC :=
    .nat (by decide)
  have hformat : Parser.Reads Reader.u32 (leBytes 4 MANIFEST_FORMAT) MANIFEST_FORMAT :=
    .nat (by decide)
  rw [StateT.run, decodeBody, hmagic.bind_apply, if_neg (not_not_intro rfl),
    hformat.bind_apply, if_neg (not_not_intro rfl), StateT.run]

section Checked

variable [Hashing]

theorem decodeVersion_withCrc (body : Bytes) :
    decodeVersion (withCrc body) = (decodeBody.run body).map Prod.fst := by
  have hlen : ¬ (withCrc body).length < 4 := by
    rw [length_withCrc]
    omega
  have hdrop : (withCrc body).drop ((withCrc body).length - 4) =
      leBytes 4 (Hashing.crc32 body).toNat := by
    rw [length_withCrc, Nat.add_sub_cancel, withCrc, List.drop_left]
  have hlt : (Hashing.crc32 body).toNat < 256 ^ 4 := (Hashing.crc32 body).toNat_lt
  rw [decodeVersion, if_neg hlen]
  simp only [hdrop, take_withCrc, leNat_leBytes_of_lt hlt, UInt32.ofNat_toNat, ne_eq,
    not_true_eq_false, if_false]

/-- **The decoder gives back the version.** -/
theorem decodeVersion_encodeVersion {v : Version} (hw : v.Words) (hf : v.LengthsFit) :
    decodeVersion (encodeVersion v) = .ok v := by
  rw [encodeVersion, decodeVersion_withCrc, encodeBody, decodeBody_tagged]
  show (decodeLayout _).map Prod.fst = _
  rw [(reads_decodeLayout hw hf).run]
  rfl

/-- **What `decodeVersion` accepts**: a manifest that begins with the version and ends with
the CRC of all before it. -/
theorem decodeVersion_iff {buf : Bytes} {v : Version} :
    decodeVersion buf = .ok v ↔
      ∃ rest, buf = withCrc (encodeBody v ++ rest) ∧ (v.Words ∧ v.LengthsFit) := by
  have hbody : ∀ body, decodeVersion (withCrc body) = .ok v ↔
      ∃ rest, body = encodeBody v ++ rest ∧ (v.Words ∧ v.LengthsFit) := by
    intro body
    rw [decodeVersion_withCrc]
    refine Parser.map_fst_ok_iff ?_ fun _ _ _ => decodeBody_ok
    rintro v ⟨hw, hf⟩ rest
    have hreads := reads_decodeLayout hw hf rest
    have htag := decodeBody_tagged (encodeLayout v ++ rest)
    simp only [encodeBody, List.append_assoc]
    simp only [encodeLayout, List.append_assoc] at hreads htag
    exact htag.trans hreads
  constructor
  · intro h
    obtain ⟨body, rfl⟩ : ∃ body, buf = withCrc body := by
      rw [decodeVersion] at h
      by_cases hshort : buf.length < 4
      · rw [if_pos hshort] at h
        cases h
      · rw [if_neg hshort] at h
        dsimp only at h
        split at h
        · cases h
        · rename_i hcrc
          exact ⟨_, eq_withCrc hshort (not_not.mp hcrc)⟩
    obtain ⟨rest, rfl, hv⟩ := (hbody body).mp h
    exact ⟨rest, rfl, hv⟩
  · rintro ⟨rest, rfl, hv⟩
    exact (hbody _).mpr ⟨rest, rfl, hv⟩

/-- A manifest that does not match its CRC. -/
theorem decodeVersion_append {body crc : Bytes} (hc : crc.length = 4)
    (hne : UInt32.ofNat (leNat crc) ≠ Hashing.crc32 body) :
    ∃ msg, decodeVersion (body ++ crc) = .error (.corrupt msg) := by
  have hlen : (body ++ crc).length - 4 = body.length := by
    rw [List.length_append, hc, Nat.add_sub_cancel]
  have hlong : ¬ (body ++ crc).length < 4 := by
    rw [List.length_append, hc]
    omega
  rw [decodeVersion, if_neg hlong]
  simp only [hlen, List.take_left, List.drop_left, if_pos hne]
  exact ⟨_, rfl⟩

/-- **The manifest codec**: what was encoded comes back, and with one byte changed it is
rejected. -/
theorem manifest_round_trip (hd : DetectsByte Hashing.crc32) {v : Version} (hw : v.Words)
    (hf : v.LengthsFit) :
    decodeVersion (encodeVersion v) = .ok v ∧
      ∀ (i : Nat) (hi : i < (encodeVersion v).length) (x : UInt8), x ≠ (encodeVersion v)[i] →
        ∃ msg, decodeVersion ((encodeVersion v).set i x) = .error (.corrupt msg) := by
  refine ⟨decodeVersion_encodeVersion hw hf, fun i hi x hx => ?_⟩
  obtain ⟨body, crc, hset, hc, hne⟩ := withCrc_set hd hi hx
  rw [encodeVersion, hset]
  exact decodeVersion_append hc hne

end Checked

/-- A version with an empty tier between two tiers that have tables. -/
def gappedVersion : Version := ⟨[[⟨2, 1, [7], [7]⟩], [], [⟨1, 3, [], [255]⟩]], 9, 3⟩

theorem manifest_round_trip_demo : letI := Hashing.ieee fun _ => 0
    decodeVersion (encodeVersion gappedVersion) = .ok gappedVersion ∧
      ∃ msg, decodeVersion ((encodeVersion gappedVersion).set 0 0) = .error (.corrupt msg) := by
  let hash := Hashing.ieee fun _ => 0
  have hround := @manifest_round_trip _ crc32Ieee_detectsByte gappedVersion
    ⟨by decide, by decide, by decide⟩ ⟨by decide, by decide, by decide⟩
  exact ⟨hround.1, hround.2 0 (by decide) 0 (by decide)⟩

end AccretionDb
