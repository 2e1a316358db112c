import AccretionDb.Lib.Checked
import AccretionDb.Manifest.Install
import AccretionDb.Storage.Exec

/-! # Reading the manifest with every step checked

The decoder of the manifest as a debug build runs it.  It never panics, whatever the bytes
are, so opening the manifest is what it was (`exec_open`).
-/

namespace AccretionDb.Debug

open CrashLogic

/-! ### The decoder -/

namespace Reader

abbrev take (n : Nat) : Scanner ManifestError Bytes := Scanner.take AccretionDb.Reader.short n
abbrev u32 : Scanner ManifestError Nat := Scanner.nat AccretionDb.Reader.short 4
abbrev u64 : Scanner ManifestError Nat := Scanner.nat AccretionDb.Reader.short 8

def bytes : Scanner ManifestError Bytes := do
  let n ← u32
  take n

theorem follows_bytes : Follows bytes AccretionDb.Reader.bytes :=
  (Follows.nat 4).bind fun n => Follows.take n

end Reader

def decodeTable : Scanner ManifestError TableMeta := do
  let id ← Reader.u64
  let numEntries ← Reader.u64
  let firstKey ← Reader.bytes
  let lastKey ← Reader.bytes
  pure ⟨id, numEntries, firstKey, lastKey⟩

def decodeTier : Scanner ManifestError (List TableMeta) := do
  let numTables ← Reader.u32
  Scanner.times decodeTable numTables

/-- The counters and the tiers. -/
def decodeLayout : Scanner ManifestError Version := do
  let nextSeq ← Reader.u64
  let nextTableId ← Reader.u64
  let numTiers ← Reader.u32
  let tiers ← Scanner.times decodeTier numTiers
  pure ⟨tiers, nextSeq, nextTableId⟩

def decodeBody : Scanner ManifestError Version := do
  let magic ← Reader.u64
  if magic ≠ MANIFEST_MAGIC then throw (.corrupt "magic mismatch")
  else do
    let format ← Reader.u32
    if format ≠ MANIFEST_FORMAT then throw (.corrupt s!"unsupported format {format}")
    else decodeLayout

def decodeVersion [Hashing] (buf : Bytes) : Option (Except ManifestError Version) :=
  if buf.length < 4 then some (.error (.corrupt "shorter than a crc"))
  else do
    let (body, stored) ← Checked.splitNat 4 buf
    let stored := UInt32.ofNat stored
    let actual := Hashing.crc32 body
    if stored ≠ actual then
      some (.error (.corrupt s!"crc mismatch: stored {hex32 stored}, computed {hex32 actual}"))
    else Scanner.scan decodeBody body

theorem follows_decodeTable : Follows decodeTable AccretionDb.decodeTable := by
  refine (Follows.nat 8).bind fun id => (Follows.nat 8).bind fun numEntries => ?_
  refine Reader.follows_bytes.bind fun firstKey => ?_
  exact Reader.follows_bytes.bind fun lastKey => .pure _

theorem follows_decodeTier : Follows decodeTier AccretionDb.decodeTier :=
  (Follows.nat 4).bind fun numTables => follows_decodeTable.times numTables

theorem follows_decodeBody : Follows decodeBody AccretionDb.decodeBody := by
  refine (Follows.nat 8).bind fun magic => .ite (.throw _) ?_
  refine (Follows.nat 4).bind fun format => .ite (.throw _) ?_
  refine (Follows.nat 8).bind fun nextSeq => (Follows.nat 8).bind fun nextTableId => ?_
  refine (Follows.nat 4).bind fun numTiers => ?_
  exact (follows_decodeTier.times numTiers).bind fun tiers => .pure _

theorem decodeVersion_eq [Hashing] {buf : Bytes} (h : buf.length < 2 ^ 64) :
    decodeVersion buf = some (AccretionDb.decodeVersion buf) := by
  have hbody : (buf.take (buf.length - 4)).length < 2 ^ 64 := by
    rw [List.length_take]
    omega
  rw [decodeVersion, AccretionDb.decodeVersion]
  by_cases hlen : buf.length < 4
  · rw [if_pos hlen, if_pos hlen]
  · rw [if_neg hlen, if_neg hlen, Checked.splitNat_of_le (Nat.le_of_not_lt hlen)]
    dsimp only [Option.bind_eq_bind, Option.bind_some]
    rw [follows_decodeBody.scan_eq hbody]
    exact (apply_ite some _ _ _).symm

/-! ### Opening -/

section Programs

variable [Hashing] {M : Type}

/-- `Manifest::open`. -/
def Manifest.open (dir : Dir) : Io M ManifestError AccretionDb.Manifest := do
  let path := manifestPath dir
  match ← (storage (.open path)).attempt with
  | .ok _ => do
    let len ← (storage (.len path)).mapError .storage
    let buf ← (storage (.readAt path 0 len)).mapError .storage
    let v ← Act.checked (decodeVersion buf)
    pure (.start v)
  | .error (_ : StorageError) => do
    AccretionDb.Manifest.writeManifest dir Version.empty
    pure (.start Version.empty)

/-- **Opening the manifest never panics**, whatever is in it. -/
theorem Manifest.exec_open {dir : Dir} {s : SimFs} (hs : s.Tidy) (m : M)
    (hlen : ∀ c, s.contents (manifestPath dir) = some c → c.length < 2 ^ 64) :
    s.exec (Manifest.open dir) m = s.exec (AccretionDb.Manifest.open dir) m := by
  have hopen : wpE (Disk.sem Faults.none) False False (fun _ : Disk × M => True)
      ((storage (.open (manifestPath dir))).attempt : Io M ManifestError _)
      (fun r σ => σ.1 = s.disk ∧ (r = .ok () → ∃ b, (s.disk (manifestPath dir)).live = some b))
      (fun _ _ => False) (s.disk, m) := by
    refine wpE_attempt (wpE_open trivial (fun hsome => ⟨rfl, fun _ => ?_⟩) (fun _ => ⟨rfl, ?_⟩)
      fun hf => hf.elim)
    · exact Option.isSome_iff_exists.mp hsome
    · exact fun h => by cases h
  refine SimFs.exec_congr hs hopen fun r s₁ m₁ hs₁ hq => ?_
  obtain ⟨hd₁, hlive⟩ := hq
  change s₁.disk = s.disk at hd₁
  cases r with
  | error err => rfl
  | ok u =>
    obtain ⟨b, hb⟩ := hlive rfl
    have hbound : b.content.length < 2 ^ 64 := hlen _ (by rw [hs.contents, hb]; rfl)
    refine SimFs.exec_congr hs₁ (Q := fun n σ => σ.1 = s.disk ∧ n = b.content.length)
      (R := fun _ _ => True) (C := fun _ => True) (H := False) ?_ fun n s₂ m₂ hs₂ hq => ?_
    · rw [hd₁]
      refine wpE_mapError (wpE_len trivial (fun b' hb' => ⟨rfl, ?_⟩) (fun _ => trivial)
        fun hf => hf.elim)
      rw [hb] at hb'
      rw [Option.some.inj hb']
    · obtain ⟨hd₂, rfl⟩ := hq
      change s₂.disk = s.disk at hd₂
      refine SimFs.exec_congr hs₂ (Q := fun buf _ => buf.length ≤ b.content.length)
        (R := fun _ _ => True) (C := fun _ => True) (H := False) ?_ fun buf s₃ m₃ hs₃ hbuf => ?_
      · rw [hd₂]
        refine wpE_mapError (wpE_readAt trivial hb (Nat.zero_le _) ?_ fun hf => hf.elim)
        rw [length_slice]
        exact Nat.min_le_left ..
      · rw [Act.checked_eq (decodeVersion_eq (Nat.lt_of_le_of_lt hbuf hbound))]

end Programs

end AccretionDb.Debug
