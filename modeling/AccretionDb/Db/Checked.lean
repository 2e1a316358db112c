import AccretionDb.Db.Tail
import AccretionDb.Manifest.Checked
import AccretionDb.Wal.Checked

/-! # Opening a database with every step checked

`open_on` as a debug build runs it.  Decoding a record never panics, and the byte count of
the memtable stays a word as long as the segments fit an address space.  What can overflow
is `rec.seq + 1`: the replay of a record with the last sequence number panics.
-/

namespace AccretionDb

open CrashLogic

namespace Debug

/-! ### Records -/

namespace RecordReader

abbrev take (n : Nat) : Scanner DbError Bytes := Scanner.take AccretionDb.RecordReader.short n
abbrev u8 : Scanner DbError Nat := Scanner.byte AccretionDb.RecordReader.short
abbrev u32 : Scanner DbError Nat := Scanner.nat AccretionDb.RecordReader.short 4
abbrev u64 : Scanner DbError Nat := Scanner.nat AccretionDb.RecordReader.short 8

end RecordReader

def decodeKind (tag : Nat) : Scanner DbError ValueKind :=
  if tag = REC_TAG_PUT then do
    let vlen ← RecordReader.u32
    let value ← RecordReader.take vlen
    pure (.value value)
  else if tag = REC_TAG_DELETE then pure .tombstone
  else throw (corruptRecord s!"unknown tag {tag}")

def readRecord : Scanner DbError Record := do
  let seq ← RecordReader.u64
  let tag ← RecordReader.u8
  let klen ← RecordReader.u32
  let key ← RecordReader.take klen
  let kind ← decodeKind tag
  pure (Record.of seq key kind)

def decodeRecord (buf : Bytes) : Option (Except DbError Record) := Scanner.scan readRecord buf

theorem follows_decodeKind (tag : Nat) : Follows (decodeKind tag) (AccretionDb.decodeKind tag) := by
  refine .ite ((Follows.nat 4).bind fun vlen => ?_) (.ite (.pure _) (.throw _))
  exact (Follows.take vlen).bind fun value => .pure _

theorem follows_readRecord : Follows readRecord AccretionDb.readRecord := by
  refine (Follows.nat 8).bind fun seq => Follows.byte.bind fun tag => ?_
  refine (Follows.nat 4).bind fun klen => (Follows.take klen).bind fun key => ?_
  exact (follows_decodeKind tag).bind fun kind => .pure _

theorem decodeRecord_eq {buf : Bytes} (h : buf.length < 2 ^ 64) :
    decodeRecord buf = some (AccretionDb.decodeRecord buf) := follows_readRecord.scan_eq h

/-! ### The memtable -/

/-- What an entry is charged. -/
def entryBytes (key : Bytes) (val : InternalValue) : Option Nat := do
  let n ← Checked.add key.length val.payloadBytes
  Checked.add n ENTRY_OVERHEAD

/-- `insert_if_newer` of a table; the new count is what `insert` makes of it. -/
def Memtable.insertIfNewer (key : Bytes) (val : InternalValue) (t : AccretionDb.Memtable) :
    Option AccretionDb.Memtable := do
  let incoming ← entryBytes key val
  match t.map[key]? with
  | some prev =>
    if prev.seq ≥ val.seq then some t
    else do
      let outgoing ← entryBytes key prev
      let others ← Checked.sub t.approxBytes outgoing
      let _count ← Checked.add others incoming
      some (t.insert key val)
  | none => do
    let _count ← Checked.add t.approxBytes incoming
    some (t.insert key val)

def MemtableSet.insertIfNewer (key : Bytes) (val : InternalValue) (s : AccretionDb.MemtableSet) :
    Option AccretionDb.MemtableSet := do
  let active ← Memtable.insertIfNewer key val s.active
  some { s with active }

theorem entryBytes_eq {key : Bytes} {val : InternalValue}
    (h : AccretionDb.entryBytes key val < 2 ^ 64) :
    entryBytes key val = some (AccretionDb.entryBytes key val) := by
  rw [AccretionDb.entryBytes] at h
  rw [entryBytes, Checked.add_of_lt (by omega)]
  exact Checked.add_of_lt h

/-- **The count does not overflow** while what was charged and what comes in are a word. -/
theorem Memtable.insertIfNewer_eq {key : Bytes} {val : InternalValue} {t : AccretionDb.Memtable}
    (h : t.approxBytes + AccretionDb.entryBytes key val < 2 ^ 64) :
    insertIfNewer key val t = some (t.insertIfNewer key val) := by
  rw [insertIfNewer, entryBytes_eq (by omega), AccretionDb.Memtable.insertIfNewer]
  dsimp only [Option.bind_eq_bind, Option.bind_some]
  cases hprev : t.map[key]? with
  | none =>
    dsimp only
    rw [Checked.add_of_lt h]
    rfl
  | some prev =>
    dsimp only
    by_cases hge : prev.seq ≥ val.seq
    · rw [if_pos hge, if_pos hge]
    · have hout := AccretionDb.Memtable.entryBytes_le (t := t) hprev
      rw [if_neg hge, if_neg hge, entryBytes_eq (by omega)]
      dsimp only [Option.bind_some]
      rw [Checked.sub_of_le hout]
      dsimp only [Option.bind_some]
      rw [Checked.add_of_lt (by omega)]
      rfl

/-- An insert charges the new entry at most. -/
theorem approxBytes_insertIfNewer_le (key : Bytes) (val : InternalValue)
    (t : AccretionDb.Memtable) : (t.insertIfNewer key val).approxBytes ≤
      t.approxBytes + AccretionDb.entryBytes key val := by
  have hins : (t.insert key val).approxBytes ≤ t.approxBytes + AccretionDb.entryBytes key val := by
    rw [(t.insert key val).exact, t.exact, chargedBytes_split t.map key]
    have hnew := chargedBytes_insert t.map key val
    change chargedBytes (t.insert key val).map = _ at hnew
    omega
  rw [AccretionDb.Memtable.insertIfNewer]
  cases t.map[key]? with
  | none => exact hins
  | some prev =>
    dsimp only
    by_cases hge : prev.seq ≥ val.seq
    · rw [if_pos hge]
      exact Nat.le_add_right _ _
    · rw [if_neg hge]
      exact hins

/-! ### The replay -/

/-- The replay loop of `open_on`. -/
def replayRecords : List Bytes → AccretionDb.MemtableSet × Nat →
    Option (Except DbError (AccretionDb.MemtableSet × Nat))
  | [], x => some (.ok x)
  | record :: records, x => do
    match ← decodeRecord record with
    | .error err => some (.error err)
    | .ok r => do
      let next ← Checked.add r.seq 1
      let memtables ← MemtableSet.insertIfNewer r.key r.value x.1
      replayRecords records (memtables, max x.2 next)

/-- The last sequence number there is. -/
def LAST_SEQ : Nat := 2 ^ 64 - 1

/-- A record with the last sequence number comes before every payload that is none. -/
inductive RunsOut : List Bytes → Prop
  | here {p : Bytes} {r : Record} (ps : List Bytes) (h : AccretionDb.decodeRecord p = .ok r)
      (hseq : r.seq = LAST_SEQ) : RunsOut (p :: ps)
  | later {p : Bytes} {ps : List Bytes} (h : IsRecord p) (tail : RunsOut ps) : RunsOut (p :: ps)

/-- A replay that runs out has read the last sequence number. -/
theorem RunsOut.exists_last {ps : List Bytes} (h : RunsOut ps) :
    ∃ p ∈ ps, ∃ r, AccretionDb.decodeRecord p = .ok r ∧ r.seq = LAST_SEQ := by
  induction h with
  | here ps hr hseq => exact ⟨_, List.mem_cons_self, _, hr, hseq⟩
  | later _ _ ih =>
    obtain ⟨p, hp, hlast⟩ := ih
    exact ⟨p, List.mem_cons_of_mem _ hp, hlast⟩

/-- What the records of these payloads can be charged: twice the bytes of their frames. -/
def roomOf (ps : List Bytes) : Nat := (ps.map fun p => 2 * (Wal.HEADER_SZ + p.length)).sum

theorem roomOf_cons (p : Bytes) (ps : List Bytes) :
    roomOf (p :: ps) = 2 * (Wal.HEADER_SZ + p.length) + roomOf ps := by
  rw [roomOf, List.map_cons, List.sum_cons]
  rfl

theorem roomOf_frames [Hashing] (ps : List Bytes) : roomOf ps = 2 * (Wal.frames ps).length := by
  induction ps with
  | nil => rfl
  | cons p ps ih =>
    rw [roomOf_cons, ih, Wal.frames_cons, List.length_append, Wal.length_encode]
    omega

/-- A record is charged for its bytes and little more. -/
theorem entryBytes_record {p : Bytes} {r : Record} (h : AccretionDb.decodeRecord p = .ok r) :
    AccretionDb.entryBytes r.key r.value ≤ 2 * (Wal.HEADER_SZ + p.length) := by
  obtain ⟨rest, rfl, hr⟩ := decodeRecord_ok h
  have hlen := length_encodeRecord r.seq r.key r.value.kind
  have hval : r.value.payloadBytes ≤ kindLen r.value.kind := by
    obtain ⟨seq, kind⟩ := r.value
    cases kind with
    | value v => exact Nat.le_add_left _ _
    | tombstone => exact Nat.le_refl _
  have h8 : Wal.HEADER_SZ = 8 := rfl
  rw [AccretionDb.entryBytes, List.length_append, hlen, ENTRY_OVERHEAD]
  omega

theorem replayRecords_eq : ∀ {ps : List Bytes} {x : AccretionDb.MemtableSet × Nat},
    ¬ RunsOut ps → x.1.active.approxBytes + roomOf ps < 2 ^ 64 →
      replayRecords ps x = some (Db.replayRecords ps x) := by
  intro ps
  induction ps with
  | nil => exact fun _ _ => rfl
  | cons p ps ih =>
    intro x hno hroom
    rw [roomOf_cons] at hroom
    rw [replayRecords, Db.replayRecords, decodeRecord_eq (by omega)]
    dsimp only [Option.bind_eq_bind, Option.bind_some]
    cases hr : AccretionDb.decodeRecord p with
    | error err => rfl
    | ok r =>
      have hcharge := entryBytes_record hr
      have hword : r.seq < 2 ^ 64 := by
        obtain ⟨_, _, _, hfit⟩ := decodeRecord_iff.mp hr
        exact hfit.seq
      have hseq : r.seq + 1 < 2 ^ 64 := by
        have hne : r.seq ≠ LAST_SEQ := fun h => hno (.here ps hr h)
        rw [LAST_SEQ] at hne
        omega
      have hins := @Memtable.insertIfNewer_eq r.key r.value x.1.active (by omega)
      dsimp only
      rw [Checked.add_of_lt hseq, MemtableSet.insertIfNewer, hins]
      dsimp only [Option.bind_some]
      have hle := approxBytes_insertIfNewer_le r.key r.value x.1.active
      have hmod : (r.seq + 1) % 2 ^ 64 = r.seq + 1 := Nat.mod_eq_of_lt hseq
      show replayRecords ps (x.1.insertIfNewer r.key r.value, max x.2 (r.seq + 1)) =
        some (Db.replayRecords ps (x.1.insertIfNewer r.key r.value,
          max x.2 ((r.seq + 1) % 2 ^ 64)))
      rw [hmod]
      refine ih (fun h => hno (.later ⟨r, hr⟩ h)) ?_
      show (x.1.active.insertIfNewer r.key r.value).approxBytes + roomOf ps < 2 ^ 64
      omega

/-- **The replay of the last sequence number panics.** -/
theorem replayRecords_eq_none {ps : List Bytes} (h : RunsOut ps) :
    ∀ {x : AccretionDb.MemtableSet × Nat}, x.1.active.approxBytes + roomOf ps < 2 ^ 64 →
      replayRecords ps x = none := by
  induction h with
  | @here p r ps hr hseq =>
    intro x hroom
    rw [roomOf_cons] at hroom
    rw [replayRecords, decodeRecord_eq (by omega), hr]
    dsimp only [Option.bind_eq_bind, Option.bind_some]
    rw [hseq]
    rfl
  | @later p ps hp _ ih =>
    intro x hroom
    obtain ⟨r, hr⟩ := hp
    rw [roomOf_cons] at hroom
    have hcharge := entryBytes_record hr
    have hins := @Memtable.insertIfNewer_eq r.key r.value x.1.active (by omega)
    rw [replayRecords, decodeRecord_eq (by omega), hr]
    dsimp only [Option.bind_eq_bind, Option.bind_some]
    cases Checked.add r.seq 1 with
    | none => rfl
    | some next =>
      dsimp only [Option.bind_some]
      rw [MemtableSet.insertIfNewer, hins]
      dsimp only [Option.bind_eq_bind, Option.bind_some]
      have hle := approxBytes_insertIfNewer_le r.key r.value x.1.active
      refine ih ?_
      show (x.1.active.insertIfNewer r.key r.value).approxBytes + roomOf ps < 2 ^ 64
      omega

/-! ### Opening -/

/-- What opening reads fits the half of an address space that a process gets; allocating
more fails. -/
structure Addressable (dir : Dir) (s : SimFs) : Prop where
  manifest : ∀ c, s.contents (manifestPath dir) = some c → c.length < 2 ^ 63
  segments : ((Wal.segments s dir).map fun x => x.2.length).sum < 2 ^ 63

/-- The payloads that opening finds in the log. -/
def logged [Hashing] (dir : Dir) (s : SimFs) : List Bytes :=
  (Wal.replay (Wal.byId (Wal.segments s dir)) .default).records

section Programs

variable [TableHashing] (self : Db.Config)

/-- `Db::open_on`. -/
def openOn {M : Type} : Io M DbError Db := do
  let manifest ← (Manifest.open self.dir).mapError .manifest
  let (wal, recovered) ← (Wal.open self.wal).mapError .storage
  let (memtables, nextSeq) ← Act.checked
    (replayRecords recovered.records (.new self.options.memtableSize, manifest.current.val.nextSeq))
  pure ⟨wal, memtables, manifest, fun _ => none, ⟨nextSeq, 0, false⟩⟩

variable {self : Db.Config} {s : SimFs} {v : Version}

omit [TableHashing] in
theorem roomOf_logged [Hashing] {dir : Dir} (h : Addressable dir s) :
    roomOf (logged dir s) < 2 ^ 64 := by
  have hle := Wal.length_frames_replay_le (Wal.byId (Wal.segments s dir)) .default
  have hsegs := h.segments
  have hsum : (Wal.byId (Wal.segments s dir)).map (fun x => x.2.length) =
      (Wal.segments s dir).map fun x => x.2.length := List.map_map ..
  rw [hsum] at hle
  rw [roomOf_frames, logged]
  have hnil : (AccretionDb.Wal.frames (AccretionDb.Wal.Recovered.default).records).length = 0 := rfl
  omega

/-- What opening reads before the log. -/
theorem exec_openManifest (hs : s.Tidy) (ha : Addressable self.dir s)
    (hm : Db.Loads self.dir s.disk v) :
    ∃ s', s'.Tidy ∧ Wal.Buffers self.dir s'.disk (Wal.segments s self.dir) ∧
      Db.SameTables s.disk s'.disk ∧
      (∀ n : Wal.SegName, n.Fits → Wal.Short s' (n.path self.dir)) ∧
      s.exec ((Manifest.open self.dir).mapError DbError.manifest) () =
        some (.ok (.start v), s', ()) := by
  have hmspec := Db.wpE_openManifest (m := ()) (H := False) hm (Wal.buffers_segments hs self.dir)
  obtain ⟨manifest, s₁, _, hopen₁, hs₁, rfl, hb₁, hsame₁⟩ := SimFs.exec_ok hs hmspec
  have hlen : ∀ c, s.contents (manifestPath self.dir) = some c → c.length < 2 ^ 64 := fun c hc =>
    Nat.lt_trans (ha.manifest c hc) (by decide)
  have hsum : ((Wal.segments s self.dir).map fun x => x.2.length).sum < 2 ^ 64 :=
    Nat.lt_trans ha.segments (by decide)
  refine ⟨s₁, hs₁, hb₁, hsame₁, Wal.short_of_sum hb₁ hsum, ?_⟩
  rw [SimFs.exec_mapError, Manifest.exec_open hs () hlen, hopen₁]
  rfl

/-- **Opening comes down to the replay**: the manifest and the log are read without a
panic, and the tables are left as they are. -/
theorem exec_openOn (hs : s.Tidy) (ha : Addressable self.dir s) (hm : Db.Loads self.dir s.disk v)
    (hadopt : Wal.Adoptable (Wal.segments s self.dir)) :
    ∃ wal s', s'.Tidy ∧ Db.SameTables s.disk s'.disk ∧ s.exec (openOn self) () =
      (replayRecords (logged self.dir s) (.new self.options.memtableSize, v.nextSeq)).map
        fun r => (r.map (Db.found v wal), s', ()) := by
  obtain ⟨s₁, hs₁, hb₁, hsame₁, hshort, hmanifest⟩ := exec_openManifest hs ha hm
  have hwspec := @Wal.wpE_open_any self.wal False _ _ () _ _ _ hb₁
    (Db.SameTables.beside s.disk self.dir) hsame₁
  obtain ⟨r, s₂, _, hopen₂⟩ := SimFs.exec_total hs₁ hwspec
  obtain ⟨hs₂, -, hr⟩ := SimFs.exec_spec hs₁ hwspec hopen₂
  cases r with
  | error err => exact absurd hadopt hr
  | ok x =>
  obtain ⟨wal, recovered⟩ := x
  obtain ⟨hrec, -, -, -, -, hsame₂⟩ := hr
  change recovered = _ at hrec
  subst hrec
  refine ⟨wal, s₂, hs₂, hsame₂, ?_⟩
  have hwal : s₁.exec ((Wal.open self.wal).mapError DbError.storage) () =
      some (.ok (wal, Wal.replay (Wal.byId (Wal.segments s self.dir)) .default), s₂, ()) := by
    rw [SimFs.exec_mapError, Wal.exec_open hs₁ hshort, hopen₂]
    rfl
  rw [openOn, SimFs.exec_bind_of_ok _ hmanifest, SimFs.exec_bind_of_ok _ hwal]
  change s₂.exec (Act.checked (replayRecords (logged self.dir s) (_, v.nextSeq)) >>= _) () = _
  cases replayRecords (logged self.dir s) (.new self.options.memtableSize, v.nextSeq) with
  | none => rfl
  | some r =>
    cases r with
    | error err => rfl
    | ok x => rfl

/-- A log that cannot be adopted is an error. -/
theorem exec_openOn_strange (hs : s.Tidy) (ha : Addressable self.dir s)
    (hm : Db.Loads self.dir s.disk v) (hno : ¬ Wal.Adoptable (Wal.segments s self.dir)) :
    ∃ err s', s.exec (openOn self) () = some (.error err, s', ()) := by
  obtain ⟨s₁, hs₁, hb₁, hsame₁, hshort, hmanifest⟩ := exec_openManifest hs ha hm
  have hwspec := @Wal.wpE_open_any self.wal False _ _ () _ _ _ hb₁ (.true _) trivial
  obtain ⟨r, s₂, _, hopen₂⟩ := SimFs.exec_total hs₁ hwspec
  obtain ⟨-, -, hr⟩ := SimFs.exec_spec hs₁ hwspec hopen₂
  cases r with
  | ok x => exact absurd hr.2.2.1 hno
  | error err =>
    refine ⟨.storage err, s₂, ?_⟩
    rw [openOn, SimFs.exec_bind_of_ok _ hmanifest]
    refine SimFs.exec_bind_of_error _ ?_
    rw [SimFs.exec_mapError, Wal.exec_open hs₁ hshort, hopen₂]
    rfl

/-- A manifest that cannot be read is an error. -/
theorem exec_openOn_damaged (hs : s.Tidy) (ha : Addressable self.dir s)
    (hno : ∀ v, ¬ Db.Loads self.dir s.disk v) :
    ∃ err s', s.exec (openOn self) () = some (.error err, s', ()) := by
  have hlen : ∀ c, s.contents (manifestPath self.dir) = some c → c.length < 2 ^ 64 := fun c hc =>
    Nat.lt_trans (ha.manifest c hc) (by decide)
  cases hlive : (s.disk (manifestPath self.dir)).live with
  | none => exact absurd (Or.inr ⟨hlive, rfl⟩) (hno .empty)
  | some b =>
    have hbad : ∀ v, AccretionDb.decodeVersion b.content ≠ .ok v := fun v hv =>
      hno v (Or.inl ⟨b, hlive, hv⟩)
    have hspec : wpE (Disk.sem Faults.none) False False (fun _ : Disk × Unit => True)
        (AccretionDb.Manifest.open self.dir) (fun _ _ => False) (fun _ _ => True) (s.disk, ()) :=
      AccretionDb.Manifest.wpE_open_damaged hlive hbad
    obtain ⟨r, s', _, hopen⟩ := SimFs.exec_total hs hspec
    obtain ⟨-, -, hr⟩ := SimFs.exec_spec hs hspec hopen
    cases r with
    | ok manifest => exact hr.elim
    | error err =>
      refine ⟨.manifest err, s', SimFs.exec_bind_of_error _ ?_⟩
      rw [SimFs.exec_mapError, Manifest.exec_open hs () hlen, hopen]
      rfl

end Programs

end Debug

end AccretionDb
