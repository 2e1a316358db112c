import AccretionDb.Compaction.Compact
import AccretionDb.Db.Quiesce
import AccretionDb.Db.Record
import AccretionDb.Wal.Log

/-! # The engine

`Db` is what a handle has in memory, and the programs of this module are its methods,
each as one thread runs it: where the source waits for another thread, they `hang`.
A `Db.Config` holds the fields of a handle that never change.
-/

namespace AccretionDb

open CrashLogic

structure Options where
  durability : Wal.Durability
  memtableSize : Nat
  tierFanout : Nat

structure Db where
  wal : Wal.State
  memtables : MemtableSet
  manifest : Manifest
  /-- The reader cache, by table id. -/
  readers : Nat → Option SsTableReader
  write : Db.WriteState

namespace Db

structure Config where
  dir : Dir
  options : Options
  /-- How many rounds the compaction loop of one flush may take; a loop that takes more
  counts as one that never ends. -/
  rounds : Nat

/-- The options of the log; its segment size is the default one. -/
def Config.wal (self : Config) : Wal.Config where
  dir := self.dir
  durability := self.options.durability
  segmentSize := Wal.DEFAULT_SEGMENT_SIZE

def walPart : Part Db Wal.State where
  get := Db.wal
  set w db := { db with wal := w }
  get_set _ _ := rfl
  set_set _ _ _ := rfl
  set_get _ := rfl

def manifestPart : Part Db Manifest where
  get := Db.manifest
  set m db := { db with manifest := m }
  get_set _ _ := rfl
  set_set _ _ _ := rfl
  set_get _ := rfl

namespace WriteState

/-- Phase 1 of a write, unless a flush is pending; the sequence number wraps as a
release build's does. -/
def claim (ws : WriteState) : WriteState :=
  if ws.flushPending then ws
  else { ws with nextSeq := (ws.nextSeq + 1) % 2 ^ 64, inFlight := ws.inFlight + 1 }

/-- Clear the in-flight mark of a write. -/
def unmark (ws : WriteState) : WriteState := { ws with inFlight := ws.inFlight - 1 }

def setPending (pending : Bool) (ws : WriteState) : WriteState := { ws with flushPending := pending }

end WriteState

def onWrite (f : WriteState → WriteState) (db : Db) : Db := { db with write := f db.write }

def onMemtables (f : MemtableSet → MemtableSet) (db : Db) : Db :=
  { db with memtables := f db.memtables }

/-! ### Opening -/

/-- The replay loop of `open_on`: the memtables and the next sequence number. -/
def replayRecords : List Bytes → MemtableSet × Nat → Except DbError (MemtableSet × Nat)
  | [], x => .ok x
  | record :: records, x => do
    let r ← decodeRecord record
    replayRecords records
      (x.1.insertIfNewer r.key r.value, max x.2 ((r.seq + 1) % 2 ^ 64))

section Programs

variable [TableHashing] {M : Type} (self : Config)

/-- `Db::open_on`. -/
def openOn : Io M DbError Db := do
  let manifest ← (Manifest.open self.dir).mapError .manifest
  let (wal, recovered) ← (Wal.open self.wal).mapError .storage
  let (memtables, nextSeq) ← Act.ofExcept
    (replayRecords recovered.records (.new self.options.memtableSize, manifest.current.val.nextSeq))
  pure ⟨wal, memtables, manifest, fun _ => none, ⟨nextSeq, 0, false⟩⟩

/-! ### Flushing -/

/-- Write one frozen table out and install the version that has it. -/
def flushTable (nextSeq : Nat) (frozen : Arc Memtable) (version : Version) :
    Io Manifest DbError Unit := do
  let id := version.nextTableId
  let entries := frozen.val.snapshot
  let table ← Act.scope () ((writeTable (tablePath self.dir id) id entries.length entries).mapError
    .compaction)
  match table with
  | some table => (Manifest.install self.dir (version.flushed table nextSeq)).mapError .manifest
  | none => pure ()

/-- The loop over the frozen tables, oldest first. -/
def flushFrozen (nextSeq : Nat) : List (Arc Memtable) → Io Db DbError Unit
  | [] => pure ()
  | frozen :: rest => do
    Manifest.withCurrent manifestPart fun version => do
      Act.zoom manifestPart (flushTable self nextSeq frozen version)
      Act.modify (onMemtables (MemtableSet.discardFrozen frozen))
    flushFrozen nextSeq rest

/-- Freeze the active table unless it is empty. -/
def freezeActive (s : MemtableSet) : MemtableSet := if s.activeBytes > 0 then s.freeze else s

/-- The flush body; the caller has the write lock. -/
def flushQuiesced : Io Db DbError Unit := do
  Act.modify (onMemtables freezeActive)
  let db ← Act.get
  flushFrozen self db.write.nextSeq db.memtables.frozen
  (Act.zoom walPart (Wal.reset self.wal)).mapError .storage
  (Act.zoom manifestPart (Manifest.cascade self.dir self.options.tierFanout self.rounds)).mapError
    .compaction

def flushLocked : Io Db DbError Unit := do
  let db ← Act.modifyGet (onWrite (WriteState.setPending true))
  if db.write.inFlight > 0 then Act.hang
  else do
    let result ← (flushQuiesced self).attempt
    Act.modify (onWrite (WriteState.setPending false))
    Act.ofExcept result

def flush : Io Db DbError Unit := flushLocked self

/-! ### Writing -/

/-- The shared write path of `put` and `delete`. -/
def writeKind (key : Bytes) (kind : ValueKind) : Io Db DbError Unit := do
  -- phase 1: claim a sequence number
  let db ← Act.modifyGet (onWrite WriteState.claim)
  if db.write.flushPending then Act.hang
  else do
    let seq := db.write.nextSeq
    -- phase 2: log the record
    match ← (Act.zoom walPart (Wal.append self.wal (encodeRecord seq key kind))).attempt with
    | .error err => do
      Act.modify (onWrite WriteState.unmark)
      throw (.storage err)
    | .ok _ => do
      -- phase 3: apply it, and flush if the memtable is full
      Act.modify (onMemtables (MemtableSet.insertIfNewer key ⟨seq, kind⟩))
      let db ← Act.modifyGet (onWrite WriteState.unmark)
      if db.memtables.isFull then flushLocked self else pure ()

def put (key value : Bytes) : Io Db DbError Unit := writeKind self key (.value value)

def delete (key : Bytes) : Io Db DbError Unit := writeKind self key .tombstone

/-! ### Reading -/

/-- `reader_for`: the cached reader of a table, or a new one. -/
def readerFor (table : TableMeta) : Io Db DbError SsTableReader := do
  let db ← Act.get
  match db.readers table.id with
  | some reader => pure reader
  | none => do
    let reader ← Act.scope () ((SsTableReader.open (tablePath self.dir table.id)).mapError .ssTable)
    Act.modify fun db => { db with readers := Function.update db.readers table.id (some reader) }
    pure reader

/-- The walk of `get` over the tables. -/
def getTables (key : Bytes) : List TableMeta → Io Db DbError (Option Bytes)
  | [] => pure none
  | table :: tables =>
    if table.keyInRange key then do
      let reader ← readerFor self table
      match ← Act.scope () ((reader.get key).mapError .ssTable) with
      | some entry => pure (internalOf entry.seq entry.value).asValue
      | none => getTables key tables
    else getTables key tables

def get (key : Bytes) : Io Db DbError (Option Bytes) := do
  let db ← Act.get
  match db.memtables.get key with
  | some v => pure v.asValue
  | none => Manifest.withCurrent manifestPart fun version => getTables self key version.tablesNewestFirst

/-- The entries of every table that are in the range, one source for each. -/
def scanTables (range : KeyRange) : List TableMeta → Io Db DbError (List (List Entry))
  | [] => pure []
  | table :: tables => do
    let reader ← readerFor self table
    let items ← Act.scope () ((reader.iter).mapError .ssTable)
    let entries ← (Act.ofExcept (items.mapM id)).mapError .ssTable
    let sources ← scanTables range tables
    pure (((entries.map TableEntry.entry).filter fun e => rangeContains range e.1) :: sources)

/-- All that the scan yields; `BTreeMap::range` panics on an inverted range. -/
def scan (range : KeyRange) : Io Db DbError (List (Bytes × Bytes)) := do
  let db ← Act.get
  match db.memtables.scanIters range with
  | none => Act.hang
  | some memory => do
    let sources ← Manifest.withCurrent manifestPart fun version => scanTables self range version.allTables
    pure (MergeIterator.new (memory ++ sources)).live

end Programs

/-! ### Freezing -/

/-- No empty table is frozen. -/
theorem filled_freezeActive {s : MemtableSet} (h : ∀ t ∈ s.frozen, t.val.snapshot ≠ []) :
    ∀ t ∈ (freezeActive s).frozen, t.val.snapshot ≠ [] := by
  intro t ht
  by_cases hpos : s.activeBytes > 0
  · rw [freezeActive, if_pos hpos] at ht
    rcases List.mem_append.mp ht with ht | ht
    · exact h t ht
    · obtain rfl := List.mem_singleton.mp ht
      intro hempty
      refine Nat.ne_of_gt hpos ((Memtable.approxBytes_eq_zero _).mpr fun key => ?_)
      rw [← Memtable.layerOf_snapshot, hempty]
      rfl
  · rw [freezeActive, if_neg hpos] at ht
    exact h t ht

/-- Afterwards the active table is empty. -/
theorem active_freezeActive (s : MemtableSet) (key : Bytes) :
    (freezeActive s).active.versions key = none := by
  by_cases hpos : s.activeBytes > 0
  · rw [freezeActive, if_pos hpos]
    exact Memtable.versions_new key
  · rw [freezeActive, if_neg hpos]
    exact (Memtable.approxBytes_eq_zero _).mp (Nat.eq_zero_of_not_pos hpos) key

/-- What is in the active table is frozen. -/
theorem frozen_freezeActive_ne_nil {s : MemtableSet} (h : s.activeBytes > 0) :
    (freezeActive s).frozen ≠ [] := by
  rw [freezeActive, if_pos h]
  exact List.append_ne_nil_of_right_ne_nil _ (List.cons_ne_nil _ [])

/-- Freezing puts at most an empty layer on top. -/
theorem layers_freezeActive (s : MemtableSet) : (freezeActive s).layers = s.layers ∨
    (freezeActive s).layers = Memtable.new.versions :: s.layers := by
  by_cases hpos : s.activeBytes > 0
  · rw [freezeActive, if_pos hpos]
    exact Or.inr s.layers_freeze
  · rw [freezeActive, if_neg hpos]
    exact Or.inl rfl

theorem length_freezeActive (s : MemtableSet) :
    (freezeActive s).frozen.length ≤ s.frozen.length + 1 := by
  by_cases hpos : s.activeBytes > 0
  · rw [freezeActive, if_pos hpos]
    exact Nat.le_of_eq List.length_append
  · rw [freezeActive, if_neg hpos]
    exact Nat.le_succ _

/-! ### Files

The log, the manifest and the tables share a directory. -/

theorem segment_ne_manifest (dir : Dir) (n : Wal.SegName) : n.path dir ≠ manifestPath dir := by
  obtain ⟨id, _ | _⟩ := n <;> exact nofun

theorem segment_ne_manifestTmp (dir : Dir) (n : Wal.SegName) :
    n.path dir ≠ manifestTmpPath dir := by
  obtain ⟨id, _ | _⟩ := n <;> exact nofun

theorem segment_ne_table (dir : Dir) (n : Wal.SegName) (id : Nat) :
    n.path dir ≠ tablePath dir id := by
  obtain ⟨i, _ | _⟩ := n <;> exact nofun

end Db

end AccretionDb
