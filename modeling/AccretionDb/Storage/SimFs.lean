import AccretionDb.Storage.Basic

/-! # The power-loss simulator

`SimFs` keeps, for every inode, the bytes the process sees and the bytes that
survive a crash, and for every path the inode it is bound to now and the one it
is bound to after a crash.  The two maps of the source are functions here, with
the default entry where a key is absent; `paths` lists the keys of `files` in
order and `ids` those of `inodes`.  The random generator is a stream of draws,
reduced to the range asked for.
-/

namespace AccretionDb

open CrashLogic

inductive TearMode
  | drop
  | truncate
  | bitFlip
  deriving DecidableEq, Repr

structure CrashReport where
  opsBeforeCrash : Nat
  tornPath : Option Path
  tearMode : TearMode
  tailLen : Nat
  tailKept : Nat

structure InodeState where
  live : Bytes
  durable : Bytes
  lastAppendSeq : Option Nat

def InodeState.default : InodeState := ⟨[], [], none⟩

structure PathState where
  liveInode : Option Nat
  durableInode : Option Nat

def PathState.default : PathState := ⟨none, none⟩

structure SimFs where
  paths : List Path
  files : Path → PathState
  inodes : Nat → InodeState
  ids : List Nat
  nextInode : Nat
  opCount : Nat
  nextAppendSeq : Nat
  crashAfter : Option Nat
  lastReport : Option CrashReport
  rng : Nat → Nat

/-- Put a path in its place in the order. -/
def placePath (p : Path) : List Path → List Path
  | [] => [p]
  | q :: qs => if p.le q then p :: q :: qs else q :: placePath p qs

/-- `BTreeMap::entry`: the key is there from now on. -/
def insertPath (p : Path) (ps : List Path) : List Path := if p ∈ ps then ps else placePath p ps

namespace SimFs

/-- `SimFs::new`; the stream stands for the generator the seed yields. -/
def new (rng : Nat → Nat) : SimFs :=
  ⟨[], fun _ => .default, fun _ => .default, [], 1, 0, 0, none, none, rng⟩

def setFile (s : SimFs) (p : Path) (e : PathState) : SimFs :=
  { s with paths := insertPath p s.paths, files := fun q => if q = p then e else s.files q }

def setInode (s : SimFs) (i : Nat) (n : InodeState) : SimFs :=
  { s with inodes := fun j => if j = i then n else s.inodes j }

/-- Whether a path is bound to the inode, now or after a crash. -/
def referenced (s : SimFs) (i : Nat) : Bool :=
  s.paths.any fun p => (s.files p).liveInode == some i || (s.files p).durableInode == some i

def durablyReferenced (s : SimFs) (i : Nat) : Bool :=
  s.paths.any fun p => (s.files p).durableInode == some i

def collectUnreferencedInodes (s : SimFs) : SimFs :=
  { s with
    inodes := fun i => if s.referenced i then s.inodes i else .default
    ids := s.ids.filter s.referenced }

/-- The inode a crash tears, with the number of its last append: the newest
unsynced append of a file that will still exist. -/
def tearTarget (s : SimFs) : Option (Nat × Nat) :=
  (List.range s.nextInode).foldl (fun best i =>
    match (s.inodes i).lastAppendSeq with
    | none => best
    | some seq =>
      if (s.inodes i).durable.length < (s.inodes i).live.length ∧ s.durablyReferenced i then
        match best with
        | none => some (seq, i)
        | some b => if b.1 ≤ seq then some (seq, i) else some b
      else best) none

/-- The next number below `n` from the generator. -/
def genRange (rng : Nat → Nat) (n : Nat) : Nat × (Nat → Nat) :=
  (rng 0 % n, fun k => rng (k + 1))

/-- What a tear makes of an inode: the mode, the durable bytes, how much of the
tail is left, and the generator behind the draws. -/
def tear (rng : Nat → Nat) (n : InodeState) : TearMode × Bytes × Nat × (Nat → Nat) :=
  let durableLen := n.durable.length
  let tailLen := n.live.length - durableLen
  let tail := n.live.drop durableLen
  let (mode, rng) := genRange rng 3
  match mode with
  | 0 => (.drop, n.durable, 0, rng)
  | 1 =>
    let (k, rng) := genRange rng (tailLen + 1)
    (.truncate, n.durable ++ tail.take k, k, rng)
  | _ =>
    let (bit, rng) := genRange rng (tailLen * 8)
    (.bitFlip, flipBit (n.durable ++ tail) (durableLen * 8 + bit), tailLen, rng)

/-- Every inode and every path goes back to its durable image. -/
def revert (s : SimFs) : SimFs :=
  { s with
    inodes := fun i =>
      { live := (s.inodes i).durable, durable := (s.inodes i).durable, lastAppendSeq := none }
    files := fun p => ⟨(s.files p).durableInode, (s.files p).durableInode⟩
    paths := s.paths.filter fun p => (s.files p).durableInode.isSome }

/-- A power loss. -/
def crash (s : SimFs) : SimFs :=
  match s.tearTarget with
  | none =>
    { s.revert.collectUnreferencedInodes with
      crashAfter := none
      lastReport := some ⟨s.opCount, none, .drop, 0, 0⟩ }
  | some (_, i) =>
    let (mode, kept, tailKept, rng) := tear s.rng (s.inodes i)
    { (s.setInode i { s.inodes i with durable := kept }).revert.collectUnreferencedInodes with
      rng
      crashAfter := none
      lastReport := some ⟨s.opCount, s.paths.find? fun p => (s.files p).durableInode == some i,
        mode, (s.inodes i).live.length - (s.inodes i).durable.length, tailKept⟩ }

/-- Count a mutating operation, and crash when an armed count is reached. -/
def bump (s : SimFs) : SimFs :=
  let s := { s with opCount := s.opCount + 1 }
  match s.crashAfter with
  | none => s
  | some n => if n ≤ s.opCount then s.crash else s

/-- `arm_crash_after`. -/
def armCrashAfter (s : SimFs) (n : Nat) : SimFs := { s with crashAfter := some n }

def create (s : SimFs) (p : Path) : Except StorageError Unit × SimFs :=
  match (s.files p).liveInode with
  | some _ => (.error (.alreadyExists p), s)
  | none =>
    let s' := { s with nextInode := s.nextInode + 1, ids := s.ids ++ [s.nextInode] }
    let s' := s'.setInode s.nextInode .default
    (.ok (), (s'.setFile p { s.files p with liveInode := some s.nextInode }).bump)

def «open» (s : SimFs) (p : Path) : Except StorageError Unit × SimFs :=
  match (s.files p).liveInode with
  | some _ => (.ok (), s)
  | none => (.error (.notFound p), s)

def append (s : SimFs) (p : Path) (data : Bytes) : Except StorageError Nat × SimFs :=
  match (s.files p).liveInode with
  | none => (.error (.notFound p), s)
  | some i =>
    let n := s.inodes i
    let s' := { s with nextAppendSeq := s.nextAppendSeq + 1 }
    (.ok n.live.length,
      (s'.setInode i
        { n with live := n.live ++ data, lastAppendSeq := some s.nextAppendSeq }).bump)

def writeAt (s : SimFs) (p : Path) (offset : Nat) (data : Bytes) :
    Except StorageError Unit × SimFs :=
  match (s.files p).liveInode with
  | none => (.error (.notFound p), s)
  | some i =>
    let n := s.inodes i
    if offset > n.live.length ∨ offset + data.length > n.live.length then
      (.error (.outOfBounds p offset n.live.length), s)
    else
      let live := n.live.take offset ++ data ++ n.live.drop (offset + data.length)
      (.ok (), (s.setInode i { n with live }).bump)

def readAt (s : SimFs) (p : Path) (offset len : Nat) : Except StorageError Bytes × SimFs :=
  match (s.files p).liveInode with
  | none => (.error (.notFound p), s)
  | some i =>
    let n := s.inodes i
    if offset > n.live.length then (.error (.outOfBounds p offset n.live.length), s)
    else (.ok (slice n.live offset len), s)

def syncFile (s : SimFs) (p : Path) : Except StorageError Unit × SimFs :=
  match (s.files p).liveInode with
  | none => (.error (.notFound p), s)
  | some i =>
    let n := s.inodes i
    (.ok (), (s.setInode i { n with durable := n.live, lastAppendSeq := none }).bump)

def syncDir (s : SimFs) (d : Dir) : Except StorageError Unit × SimFs :=
  let files := fun p =>
    if p.dir = d then ⟨(s.files p).liveInode, (s.files p).liveInode⟩ else s.files p
  let paths := s.paths.filter fun p =>
    (files p).liveInode.isSome || (files p).durableInode.isSome
  (.ok (), { s with files, paths }.collectUnreferencedInodes.bump)

def rename (s : SimFs) (src dst : Path) : Except StorageError Unit × SimFs :=
  match (s.files src).liveInode with
  | none => (.error (.notFound src), s)
  | some i =>
    let s' := if src = dst then s else
      let s' := s.setFile dst { s.files dst with liveInode := some i }
      s'.setFile src { s'.files src with liveInode := none }
    (.ok (), s'.collectUnreferencedInodes.bump)

def delete (s : SimFs) (p : Path) : Except StorageError Unit × SimFs :=
  match (s.files p).liveInode with
  | none => (.error (.notFound p), s)
  | some _ =>
    (.ok (), (s.setFile p { s.files p with liveInode := none }).collectUnreferencedInodes.bump)

def list (s : SimFs) (d : Dir) : Except StorageError (List Path) × SimFs :=
  (.ok (s.paths.filter fun p => (s.files p).liveInode.isSome && p.dir == d), s)

def len (s : SimFs) (p : Path) : Except StorageError Nat × SimFs :=
  match (s.files p).liveInode with
  | none => (.error (.notFound p), s)
  | some i => (.ok (s.inodes i).live.length, s)

/-- `impl Storage for SimFs`. -/
def run : (o : StorageOp) → SimFs → o.Resp × SimFs
  | .create p, s => s.create p
  | .open p, s => s.open p
  | .append p data, s => s.append p data
  | .writeAt p offset data, s => s.writeAt p offset data
  | .readAt p offset len, s => s.readAt p offset len
  | .syncFile p, s => s.syncFile p
  | .syncDir d, s => s.syncDir d
  | .rename src dst, s => s.rename src dst
  | .delete p, s => s.delete p
  | .list d, s => s.list d
  | .len p, s => s.len p

/-- The simulator with injected errors. -/
def sem (e : Faults) : Sem StorageOp StorageOp.Resp SimFs where
  safe _ _ := True
  step
    | .append p data, s, r, s' =>
      (r, s') = s.append p data ∨
      (e.fail (.append p data) ∧ (∃ msg, r = .error (.io p msg)) ∧ s' = s) ∨
      ((∃ msg, r = .error (.io p msg)) ∧ ∃ n, n ≤ data.length ∧ e.short p data n ∧
        s' = (s.append p (data.take n)).2)
    | o, s, r, s' =>
      (r, s') = run o s ∨ (e.fail o ∧ (∃ msg, r = .error (.io o.target msg)) ∧ s' = s)

end SimFs

end AccretionDb
