import AccretionDb.Lib.Bytes
import AccretionDb.Lib.Act

/-! # The storage seam

The paths, errors and operations of the `Storage` trait.  A path is a directory
and a file name; the names the engine builds are the constructors of `FileName`,
and `FileName.render` spells them out, since directory listings are sorted by
spelling.
-/

namespace AccretionDb

open CrashLogic

/-- The file names of a database directory.  `wal id`, `walTmp id` and `sst id`
stand for the id written with twenty digits and a suffix, `signedWal id` for a `+`,
nineteen digits and the suffix of `wal`, and `other` for the names that none of these
spells. -/
inductive FileName
  | manifest
  | manifestTmp
  | wal (id : Nat)
  | signedWal (id : Nat)
  | walTmp (id : Nat)
  | sst (id : Nat)
  | other (name : Bytes)
  deriving DecidableEq, Repr

/-- The last `w` decimal digits of `n`, most significant first, in ASCII. -/
def decimal : Nat → Nat → Bytes
  | 0, _ => []
  | w + 1, n => decimal w (n / 10) ++ [UInt8.ofNat (48 + n % 10)]

/-- `str::parse::<u64>`. -/
def parseU64 (b : Bytes) : Option Nat :=
  let digits := if b.head? = some 43 then b.tail else b
  if digits ≠ [] ∧ digits.all fun c => decide (48 ≤ c ∧ c ≤ 57) then
    let n := digits.foldl (fun n c => n * 10 + (c.toNat - 48)) 0
    if n < 2 ^ 64 then some n else none
  else none

def FileName.render : FileName → Bytes
  | manifest => [77, 65, 78, 73, 70, 69, 83, 84]
  | manifestTmp => [77, 65, 78, 73, 70, 69, 83, 84, 46, 116, 109, 112]
  | wal id => decimal 20 id ++ [46, 119, 97, 108]
  | signedWal id => 43 :: decimal 19 id ++ [46, 119, 97, 108]
  | walTmp id => decimal 20 id ++ [46, 119, 97, 108, 46, 116, 109, 112]
  | sst id => decimal 20 id ++ [46, 115, 115, 116]
  | other name => name

abbrev Dir := Bytes

structure Path where
  dir : Dir
  name : FileName
  deriving DecidableEq, Repr

/-- Directory listings come in this order. -/
def Path.le (p q : Path) : Bool :=
  decide (p.dir < q.dir ∨ p.dir = q.dir ∧ p.name.render ≤ q.name.render)

inductive StorageError
  | notFound (path : Path)
  | alreadyExists (path : Path)
  | outOfBounds (path : Path) (offset len : Nat)
  | notADirectory (path : Path)
  | io (path : Path) (message : String)
  deriving DecidableEq, Repr

/-- The methods of `Storage`. -/
inductive StorageOp
  | create (path : Path)
  | open (path : Path)
  | append (path : Path) (data : Bytes)
  | writeAt (path : Path) (offset : Nat) (data : Bytes)
  | readAt (path : Path) (offset len : Nat)
  | syncFile (path : Path)
  | syncDir (dir : Dir)
  | rename (src dst : Path)
  | delete (path : Path)
  | list (dir : Dir)
  | len (path : Path)

namespace StorageOp

/-- What a method returns when it succeeds. -/
@[reducible] def Ret : StorageOp → Type
  | append .. => Nat
  | readAt .. => Bytes
  | list _ => List Path
  | len _ => Nat
  | _ => Unit

@[reducible] def Resp (o : StorageOp) : Type := Except StorageError o.Ret

/-- The path an injected error names. -/
def target : StorageOp → Path
  | create p | StorageOp.open p | append p _ | writeAt p _ _ | readAt p _ _ | syncFile p
  | rename p _ | delete p | len p => p
  | syncDir d | list d => ⟨d, .other []⟩

end StorageOp

/-- Programs over a storage and a memory `M`, with errors `ε`. -/
abbrev Io (M ε α : Type) := Act StorageOp StorageOp.Resp M ε α

/-- One storage call. -/
abbrev storage {M : Type} (o : StorageOp) : Io M StorageError o.Ret := Act.device o

/-- `u64` addition of one, which wraps around in a release build. -/
def wrappingSucc {M ε : Type} (n : Nat) : Io M ε Nat := do
  Act.fits (n + 1 < 2 ^ 64)
  pure ((n + 1) % 2 ^ 64)

/-- Where an operation may go wrong without a power loss: `fail` is a call that
returns an error and has no effect, `short p data n` an append of `data` that
writes `n` bytes and then returns an error. -/
structure Faults where
  fail : StorageOp → Prop
  short : Path → Bytes → Nat → Prop

/-- Every call does what it says. -/
def Faults.none : Faults where
  fail _ := False
  short _ _ _ := False

/-- Something may go wrong. -/
def Faults.Any (e : Faults) : Prop := (∃ o, e.fail o) ∨ ∃ p data n, e.short p data n

theorem Faults.any_of_fail {e : Faults} {o : StorageOp} (h : e.fail o) : e.Any := Or.inl ⟨o, h⟩

theorem Faults.any_of_short {e : Faults} {p : Path} {data : Bytes} {n : Nat}
    (h : e.short p data n) : e.Any := Or.inr ⟨p, data, n, h⟩

theorem Faults.not_any_none : ¬ Faults.none.Any := by
  rintro (⟨o, h⟩ | ⟨p, data, n, h⟩)
  · exact h
  · exact h

theorem Faults.not_short_none : ¬ ∃ p data n, Faults.none.short p data n := by
  rintro ⟨p, data, n, h⟩
  exact h

end AccretionDb
