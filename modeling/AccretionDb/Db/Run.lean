import AccretionDb.Db.Engine
import AccretionDb.Storage.Exec
import Mathlib.Logic.Relation

/-! # Runs of a client

A client opens a database and gives it commands; between them readers may take and drop
versions.
-/

namespace AccretionDb.Db

open CrashLogic

inductive Command
  | put (key value : Bytes)
  | delete (key : Bytes)
  | flush

namespace Command

/-- The memtables that a flush of the command finds, if it flushes. -/
def flushes (db : Db) : Command → Option MemtableSet
  | .flush => some db.memtables
  | .put key value => filled (db.memtables.insertIfNewer key ⟨db.write.nextSeq, .value value⟩)
  | .delete key => filled (db.memtables.insertIfNewer key ⟨db.write.nextSeq, .tombstone⟩)
where
  filled (s : MemtableSet) : Option MemtableSet := if s.isFull then some s else none

theorem filled_eq_some {s : MemtableSet} (h : s.isFull = true) : flushes.filled s = some s := if_pos h

end Command

section Programs

variable [TableHashing] {self : Config}

def Command.program (self : Config) : Command → Io Db DbError Unit
  | .put key value => Db.put self key value
  | .delete key => Db.delete self key
  | .flush => Db.flush self

/-- A command, whatever it returns, or a reader that takes the current version or drops
one. -/
inductive Step (self : Config) : Option Command → SimFs × Db → SimFs × Db → Prop
  | command {c s db r s' db'} (h : s.exec (Command.program self c) db = some (r, s', db')) :
      Step self (some c) (s, db) (s', db')
  | take {s db} : Step self none (s, db) (s, manifestPart.set db.manifest.pin db)
  | drop {s db} (version : Arc Version) :
      Step self none (s, db) (s, manifestPart.set (db.manifest.unpin version) db)

/-- The commands one after the other, each returning `Ok`. -/
def runAll (self : Config) : List Command → SimFs × Db → Option (SimFs × Db)
  | [], x => some x
  | c :: cs, x =>
    match x.1.exec (c.program self) x.2 with
    | some (.ok (), s, db) => runAll self cs (s, db)
    | _ => none

/-- The first of the commands has returned `Ok`. -/
theorem exec_of_runAll {c : Command} {cs : List Command} {x z : SimFs × Db}
    (h : runAll self (c :: cs) x = some z) : ∃ y : SimFs × Db,
      x.1.exec (c.program self) x.2 = some (.ok (), y.1, y.2) ∧ runAll self cs y = some z := by
  rw [runAll] at h
  split at h
  · next s db he => exact ⟨(s, db), he, h⟩
  · cases h

theorem steps_of_runAll {cs : List Command} : ∀ {x y : SimFs × Db}, runAll self cs x = some y →
    Relation.ReflTransGen (fun x y => ∃ c, Step self c x y) x y := by
  induction cs with
  | nil =>
    intro x y h
    obtain rfl := Option.some.inj h
    exact .refl
  | cons c cs ih =>
    intro x z h
    obtain ⟨y, he, hrest⟩ := exec_of_runAll h
    exact .head ⟨some c, .command he⟩ (ih hrest)

theorem runAll_concat {c : Command} {cs : List Command} : ∀ {x z : SimFs × Db},
    runAll self (cs ++ [c]) x = some z → ∃ y, runAll self cs x = some y ∧
      y.1.exec (c.program self) y.2 = some (.ok (), z.1, z.2) := by
  induction cs with
  | nil =>
    intro x z h
    obtain ⟨y, he, hrest⟩ := exec_of_runAll h
    obtain rfl := Option.some.inj hrest
    exact ⟨x, rfl, he⟩
  | cons c' cs ih =>
    intro x z h
    obtain ⟨y, he, hrest⟩ := exec_of_runAll h
    obtain ⟨w, hw, hlast⟩ := ih hrest
    exact ⟨w, by rw [runAll, he]; exact hw, hlast⟩

/-- Open the directory and run the commands. -/
def openThen (self : Config) (s : SimFs) (cs : List Command) : Option (SimFs × Db) :=
  match s.exec (openOn self) () with
  | some (.ok db, fs, ()) => runAll self cs (fs, db)
  | _ => none

/-- Open a new directory and run the commands. -/
def afterOpen (self : Config) (cs : List Command) : Option (SimFs × Db) :=
  openThen self (SimFs.new fun _ => 0) cs

theorem openThen_eq {s : SimFs} {cs : List Command} {fs : SimFs} {db : Db}
    (h : s.exec (openOn self) () = some (.ok db, fs, ())) :
    openThen self s cs = runAll self cs (fs, db) := by
  rw [openThen, h]

theorem open_of_openThen {s : SimFs} {cs : List Command} {z : SimFs × Db}
    (h : openThen self s cs = some z) :
    ∃ fs db, s.exec (openOn self) () = some (.ok db, fs, ()) ∧
      runAll self cs (fs, db) = some z := by
  rw [openThen] at h
  split at h
  · next db fs he => exact ⟨fs, db, he, h⟩
  · cases h

end Programs

end AccretionDb.Db
