import AccretionDb.Wal.Recovery

/-! # The write-ahead log

The log proper: the writer half, which owns the active segment, the coordination
half of group commit, and the operations `open`, `reset` and `append`.  A `Config`
holds the fields of `Wal` that never change.  A program of this module is what one
thread does; a wait for another thread is a `hang`.
-/

namespace AccretionDb.Wal

open CrashLogic

inductive Durability
  | always
  | groupCommit
  | osBuffered
  deriving DecidableEq, Repr

def Durability.isDurable : Durability → Bool
  | always | groupCommit => true
  | osBuffered => false

def DEFAULT_SEGMENT_SIZE : Nat := 4 * 1024 * 1024

structure Config where
  dir : Dir
  durability : Durability
  segmentSize : Nat

/-- The segment-writing half. -/
structure Writer where
  active : Segment

/-- The commit-coordination half. -/
structure Coord where
  /-- Frames awaiting a durability barrier, with their commit sequence numbers. -/
  queue : List (Nat × Bytes)
  /-- The last commit sequence number handed out. -/
  nextSeq : Nat
  /-- Highest commit sequence number that has been made durable. -/
  syncedThrough : Nat
  /-- Whether a leader is writing a batch. -/
  leaderActive : Bool

def Coord.default : Coord := ⟨[], 0, 0, false⟩

structure State where
  writer : Writer
  coord : Coord

def Writer.segment : Part Writer Segment where
  get := Writer.active
  set s _ := ⟨s⟩
  get_set _ _ := rfl
  set_set _ _ _ := rfl
  set_get _ := rfl

def State.writerPart : Part State Writer where
  get := State.writer
  set w st := { st with writer := w }
  get_set _ _ := rfl
  set_set _ _ _ := rfl
  set_get _ := rfl

/-! ### Group-commit bookkeeping -/

namespace Coord

/-- Claim a sequence number and enqueue the frame under it. -/
def enqueue (frame : Bytes) (c : Coord) : Coord :=
  { c with nextSeq := c.nextSeq + 1, queue := c.queue ++ [(c.nextSeq + 1, frame)] }

/-- The record under `mySeq` is already durable. -/
def durable (mySeq : Nat) (c : Coord) : Prop := mySeq ≤ c.syncedThrough

instance (mySeq : Nat) (c : Coord) : Decidable (c.durable mySeq) :=
  inferInstanceAs (Decidable (_ ≤ _))

/-- Look at the bookkeeping, and take the whole queue if a leader is needed. -/
def lead (mySeq : Nat) (c : Coord) : Coord :=
  if c.durable mySeq ∨ c.leaderActive then c else { c with leaderActive := true, queue := [] }

def highest (batch : List (Nat × Bytes)) (mySeq : Nat) : Nat :=
  (batch.getLast?.map Prod.fst).getD mySeq

/-- Publish the outcome of a batch; a failed batch goes back in front. -/
def publish {ε : Type} (batch : List (Nat × Bytes)) (mySeq : Nat) (io : Except ε Unit)
    (c : Coord) : Coord :=
  match io with
  | .ok _ =>
    { c with leaderActive := false, syncedThrough := max c.syncedThrough (highest batch mySeq) }
  | .error _ => { c with leaderActive := false, queue := batch ++ c.queue }

end Coord

def State.onCoord (f : Coord → Coord) (st : State) : State := { st with coord := f st.coord }

section Programs

variable [Hashing] (self : Config)

/-- Roll to a fresh segment if the active one has crossed `segment_size`. -/
def maybeRotate : Io Writer StorageError Unit := do
  let w ← Act.get
  if w.active.writeOffset < self.segmentSize then pure ()
  else do
    let nextId ← wrappingSucc w.active.id
    Act.zoom Writer.segment Segment.sync
    let seg ← Segment.create self.dir nextId
    storage (.syncDir self.dir)
    Act.modify fun _ => ⟨seg⟩

def appendAll : List (Nat × Bytes) → Io Writer StorageError Unit
  | [] => pure ()
  | (_, frame) :: batch => do
    Act.zoom Writer.segment (Segment.append frame)
    appendAll batch

/-- Write every frame of a batch, sync once, and roll if need be. -/
def writeBatch (batch : List (Nat × Bytes)) : Io Writer StorageError Unit := do
  appendAll batch
  Act.zoom Writer.segment Segment.sync
  maybeRotate self

def commitSyncNow (frame : Bytes) : Io State StorageError Unit :=
  Act.zoom State.writerPart do
    Act.zoom Writer.segment (Segment.append frame)
    Act.zoom Writer.segment Segment.sync
    maybeRotate self

def commitBuffered (frame : Bytes) : Io State StorageError Unit :=
  Act.zoom State.writerPart do
    Act.zoom Writer.segment (Segment.append frame)
    maybeRotate self

/-- Enqueue the frame, then lead a batch, or wait for the leader there is. -/
def commitGroup (frame : Bytes) : Io State StorageError Unit := do
  let st ← Act.modifyGet (State.onCoord (Coord.enqueue frame))
  let mySeq := st.coord.nextSeq + 1
  let st ← Act.modifyGet (State.onCoord (Coord.lead mySeq))
  if st.coord.durable mySeq then pure ()
  else if st.coord.leaderActive then Act.hang
  else do
    let batch := st.coord.queue
    let io ← Act.attempt (Act.zoom State.writerPart (writeBatch self batch))
    Act.modify (State.onCoord (Coord.publish batch mySeq io))
    Act.ofExcept io

/-- Append one record and return once the durability contract is met. -/
def append (payload : Bytes) : Io State StorageError Unit :=
  let frame := encode payload
  match self.durability with
  | .always => commitSyncNow self frame
  | .osBuffered => commitBuffered self frame
  | .groupCommit => commitGroup self frame

def deleteAll {M : Type} : List (Nat × Path) → Io M StorageError Unit
  | [] => pure ()
  | (_, path) :: rest => do
    storage (.delete path)
    deleteAll rest

/-- Release the entire log: a fresh segment first, then the old ones go. -/
def reset : Io State StorageError Unit :=
  Act.zoom State.writerPart do
    let existing ← listSegments self.dir
    let nextId ← wrappingSucc ((existing.map Prod.fst).foldl max 0)
    let fresh ← Segment.create self.dir nextId
    storage (.syncDir self.dir)
    deleteAll existing
    storage (.syncDir self.dir)
    Act.modify fun _ => ⟨fresh⟩

/-- Choose the active segment: the last one there is, or a new first one. -/
def openActive {M : Type} : Io M StorageError Segment := do
  let segments ← listSegments self.dir
  match segments.getLast? with
  | some (id, _) => Segment.open self.dir id
  | none => do
    let seg ← Segment.create self.dir 1
    storage (.syncDir self.dir)
    pure seg

/-- Open the log rooted at `dir`: recover, cut a dirty tail off, adopt a segment. -/
def «open» {M : Type} : Io M StorageError (State × Recovered) := do
  let recovered ← recover self.dir
  if recovered.stopReason ≠ .clean then
    match recovered.tailSegment with
    | some tail => truncateTail self.dir tail recovered.tailValidLen
    | none => pure ()
  let active ← openActive self
  pure (⟨⟨active⟩, .default⟩, recovered)

end Programs

end AccretionDb.Wal
