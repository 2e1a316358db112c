import AccretionDb.Db.Engine
import Mathlib.Data.Finset.Card
import Mathlib.Logic.Relation

/-! # Threads on one handle

Any number of threads write, flush, get and scan at once.  One step is what a thread does
while it has a lock, or one thing that it does with the files of the tables: a section under
the write lock, a look at the memtables, a pin of the current version, a table written, read
or deleted.  The condvar of the write path is left to its guards here (`Machine` has the
wakeups).  Appends and the calls of a flush may fail.  A reader that is cached reads the same
file as one that is opened, so there is no cache.

`log`, `applied` and `written` are for the proofs, no step depends on them: the records
whose append returned `Ok` since the log was emptied, the writes in the order in which they
reached the memtable, and what every table was last written with.
-/

namespace AccretionDb.Db

open CrashLogic

/-! ### Where a thread stands -/

/-- In `put` or `delete`. -/
inductive Writing
  /-- Phase 1, at the lock or in `quiesced.wait`. -/
  | claiming (key : Bytes) (kind : ValueKind)
  /-- Phase 2, in `Wal::append`. -/
  | appending (e : Entry)
  /-- The record is logged; before `insert_if_newer`. -/
  | applying (e : Entry)
  /-- At the lock of the error exit. -/
  | failing
  /-- Phase 3, at the lock. -/
  | finishing
  /-- Phase 3, with the lock, before `is_full`. -/
  | checking

/-- What a new version is installed for. -/
inductive Purpose
  /-- A frozen table went to a file; these are left. -/
  | table (frozen : Arc Memtable) (rest : List (Arc Memtable))
  /-- A tier was compacted. -/
  | tier

/-- In `flush_locked`.  A version that is named is held. -/
inductive Flushing
  /-- At the lock. -/
  | entering
  /-- In `quiesced.wait`. -/
  | quiescing
  /-- With the lock from here on; at the start of `flush_quiesced`. -/
  | freezing
  /-- At the head of the loop over the frozen tables. -/
  | looping (rest : List (Arc Memtable))
  | writing (version : Arc Version) (frozen : Arc Memtable) (rest : List (Arc Memtable))
  /-- The table is written; before the swap of `install`. -/
  | installing (version : Arc Version) (new : Version) (purpose : Purpose)
  /-- Before the look of `gc`. -/
  | collecting (version : Arc Version) (purpose : Purpose)
  | sweeping (version : Arc Version) (liveIds : List Nat) (purpose : Purpose)
  | discarding (version : Arc Version) (frozen : Arc Memtable) (rest : List (Arc Memtable))
  | resetting
  /-- At the head of the compaction loop. -/
  | compacting
  | merging (version : Arc Version) (t : Nat)

/-- In `get` or `scan`, called when `since` writes were applied. -/
inductive Reading
  | getting (key : Bytes) (since : Nat)
  /-- The memtables do not have the key. -/
  | missed (key : Bytes) (since : Nat)
  /-- With the version held; these tables are left. -/
  | walking (key : Bytes) (since : Nat) (version : Arc Version) (tables : List TableMeta)
  /-- Returned, when `till` writes were applied. -/
  | got (key : Bytes) (since till : Nat) (answer : Option Bytes)
  | scanning (range : KeyRange) (since : Nat)
  /-- With the sources from the memtables, taken when `looked` writes were applied. -/
  | captured (range : KeyRange) (since looked : Nat) (memory : List (List Entry))
  /-- With the version held that was current when `pinned` writes were applied. -/
  | gathering (range : KeyRange) (since looked pinned : Nat) (memory : List (List Entry))
      (version : Arc Version) (sources : List (List Entry)) (tables : List TableMeta)
  /-- Returned; `sources` are what it read of the tables. -/
  | scanned (range : KeyRange) (since looked pinned till : Nat) (sources : List (List Entry))
      (out : List (Bytes × Bytes))
  /-- Returned an error: the file of a table is not there. -/
  | lost

inductive Thread
  | idle
  | write (at_ : Writing)
  | flush (at_ : Flushing)
  | read (at_ : Reading)
  | returned (ok : Bool)

/-- The version that the flush holds. -/
def Flushing.pin : Flushing → Option (Arc Version)
  | writing version _ _ | installing version _ _ | collecting version _ | sweeping version _ _
  | discarding version _ _ | merging version _ => some version
  | _ => none

/-- The flush has the write lock. -/
def Flushing.Running : Flushing → Prop
  | entering | quiescing => False
  | _ => True

/-- The next call may fail, and the flush with it. -/
def Flushing.Fallible : Flushing → Prop
  | writing .. | installing .. | sweeping .. | resetting | merging .. => True
  | _ => False

def Reading.pin : Reading → Option (Arc Version)
  | walking _ _ version _ | gathering _ _ _ _ _ version _ _ => some version
  | _ => none

namespace Thread

/-- The version that the thread holds. -/
def pin : Thread → Option (Arc Version)
  | flush f => f.pin
  | read r => r.pin
  | _ => none

/-- The thread keeps the write lock between two steps. -/
def Locks : Thread → Prop
  | write .checking => True
  | flush f => f.Running
  | _ => False

/-- What the thread is as a caller of the write path. -/
def call : Thread → Call
  | write (.appending e) => .appending e.2.seq 0
  | write (.applying e) => .applying e.2.seq
  | write .failing => .failing 0
  | write .finishing => .finishing 0
  | _ => .idle

/-- The thread has a sequence number and has not applied its write. -/
def Carries (t : Thread) (e : Entry) : Prop := t = write (.appending e) ∨ t = write (.applying e)

/-- The call has returned, or there was none. -/
def Done : Thread → Prop
  | idle | returned _ | read (.got ..) | read (.scanned ..) | read .lost => True
  | _ => False

end Thread

/-! ### What they share -/

structure Shared where
  write : WriteState
  /-- Who keeps the write lock between two steps. -/
  holder : Option Nat
  memtables : MemtableSet
  manifest : Manifest
  /-- The entries of every table file. -/
  files : Nat → Option (List Entry)
  threads : Nat → Thread
  log : List Entry
  applied : List Entry
  written : Contents

namespace Shared

/-- The threads of a handle with no call under way; `log` are the records in its log. -/
def start (db : Db) (log : List Entry) (T : Contents) (present : Nat → Bool) : Shared where
  write := db.write
  holder := none
  memtables := db.memtables
  manifest := db.manifest
  files id := if present id then some (T id) else none
  threads _ := .idle
  log := log
  applied := []
  written := T

def setThread (s : Shared) (i : Nat) (t : Thread) : Shared :=
  { s with threads := Function.update s.threads i t }

/-- What a reader finds in the files. -/
def contents (s : Shared) : Contents := fun id => (s.files id).getD []

/-- A table file is written, all of it. -/
def writeFile (s : Shared) (id : Nat) (es : List Entry) : Shared :=
  { s with
    files := Function.update s.files id (some es)
    written := Function.update s.written id es }

/-- Phase 1 of a write. -/
def claim (s : Shared) (i : Nat) (key : Bytes) (kind : ValueKind) : Shared :=
  { s with write := s.write.claim }.setThread i
    (.write (.appending (key, ⟨s.write.nextSeq, kind⟩)))

/-- A write reaches the memtable. -/
def apply (s : Shared) (i : Nat) (e : Entry) : Shared :=
  { s with
    memtables := s.memtables.insertIfNewer e.1 e.2
    applied := s.applied ++ [e] }.setThread i (.write .finishing)

/-- `flush_locked`: go on with the lock, or wait for the writes in flight. -/
def flushLocked (s : Shared) (i : Nat) : Shared :=
  if s.write.inFlight > 0 then
    { s with write := s.write.setPending true, holder := none }.setThread i (.flush .quiescing)
  else
    { s with write := s.write.setPending true, holder := some i }.setThread i (.flush .freezing)

/-- The end of `flush_locked`. -/
def release (s : Shared) (i : Nat) (ok : Bool) : Shared :=
  { s with write := s.write.setPending false, holder := none }.setThread i (.returned ok)

/-- A version is dropped that may be held. -/
def drop (s : Shared) (version : Option (Arc Version)) : Shared :=
  { s with manifest := version.elim s.manifest fun v => s.manifest.unpin v }

/-! ### The steps -/

/-- A write goes on. -/
inductive WriteMove (i : Nat) (s : Shared) : Shared → Prop
  | claim {key : Bytes} {kind : ValueKind} (h : s.threads i = .write (.claiming key kind))
      (hl : s.holder = none) (hp : s.write.flushPending = false)
      (hroom : s.write.nextSeq + 1 < 2 ^ 64) : WriteMove i s (s.claim i key kind)
  | appendOk {e : Entry} (h : s.threads i = .write (.appending e)) :
      WriteMove i s ({ s with log := s.log ++ [e] }.setThread i (.write (.applying e)))
  | appendErr {e : Entry} (h : s.threads i = .write (.appending e)) :
      WriteMove i s (s.setThread i (.write .failing))
  | apply {e : Entry} (h : s.threads i = .write (.applying e)) : WriteMove i s (s.apply i e)
  | fail (h : s.threads i = .write .failing) (hl : s.holder = none) :
      WriteMove i s ({ s with write := s.write.unmark }.setThread i (.returned false))
  | finish (h : s.threads i = .write .finishing) (hl : s.holder = none) :
      WriteMove i s ({ s with write := s.write.unmark, holder := some i }.setThread i
        (.write .checking))
  | pass (h : s.threads i = .write .checking) (hf : s.memtables.isFull = false) :
      WriteMove i s ({ s with holder := none }.setThread i (.returned true))
  | full (h : s.threads i = .write .checking) (hf : s.memtables.isFull = true) :
      WriteMove i s (s.flushLocked i)

/-- A flush goes on. -/
inductive FlushMove (fanout i : Nat) (s : Shared) : Shared → Prop
  | enter (h : s.threads i = .flush .entering) (hl : s.holder = none) :
      FlushMove fanout i s (s.flushLocked i)
  | quiesce (h : s.threads i = .flush .quiescing) (hl : s.holder = none)
      (hz : s.write.inFlight = 0) :
      FlushMove fanout i s ({ s with holder := some i }.setThread i (.flush .freezing))
  | freeze (h : s.threads i = .flush .freezing) :
      FlushMove fanout i s ({ s with memtables := freezeActive s.memtables }.setThread i
        (.flush (.looping (freezeActive s.memtables).frozen)))
  | next {t : Arc Memtable} {rest : List (Arc Memtable)}
      (h : s.threads i = .flush (.looping (t :: rest))) :
      FlushMove fanout i s ({ s with manifest := s.manifest.pin }.setThread i
        (.flush (.writing s.manifest.current t rest)))
  | write {version : Arc Version} {t : Arc Memtable} {rest : List (Arc Memtable)}
      {table : TableMeta} (h : s.threads i = .flush (.writing version t rest))
      (hfree : s.files version.val.nextTableId = none)
      (hout : outputMeta version.val.nextTableId t.val.snapshot = some table) :
      FlushMove fanout i s ((s.writeFile version.val.nextTableId t.val.snapshot).setThread i
        (.flush (.installing version (version.val.flushed table s.write.nextSeq) (.table t rest))))
  | writeEmpty {version : Arc Version} {t : Arc Memtable} {rest : List (Arc Memtable)}
      (h : s.threads i = .flush (.writing version t rest))
      (hfree : s.files version.val.nextTableId = none)
      (hout : outputMeta version.val.nextTableId t.val.snapshot = none) :
      FlushMove fanout i s ((s.writeFile version.val.nextTableId t.val.snapshot).setThread i
        (.flush (.discarding version t rest)))
  | install {version : Arc Version} {new : Version} {purpose : Purpose}
      (h : s.threads i = .flush (.installing version new purpose)) :
      FlushMove fanout i s ({ s with manifest := s.manifest.adopt new }.setThread i
        (.flush (.collecting version purpose)))
  | collect {version : Arc Version} {purpose : Purpose}
      (h : s.threads i = .flush (.collecting version purpose)) :
      FlushMove fanout i s ({ s with manifest := s.manifest.retain }.setThread i
        (.flush (.sweeping version s.manifest.retain.liveIds purpose)))
  | delete {version : Arc Version} {liveIds : List Nat} {purpose : Purpose} {id : Nat}
      (h : s.threads i = .flush (.sweeping version liveIds purpose)) (hid : id ∉ liveIds) :
      FlushMove fanout i s { s with files := Function.update s.files id none }
  | sweptTable {version : Arc Version} {liveIds : List Nat} {t : Arc Memtable}
      {rest : List (Arc Memtable)}
      (h : s.threads i = .flush (.sweeping version liveIds (.table t rest)))
      (hdone : ∀ id, s.files id ≠ none → id ∈ liveIds) :
      FlushMove fanout i s (s.setThread i (.flush (.discarding version t rest)))
  | sweptTier {version : Arc Version} {liveIds : List Nat}
      (h : s.threads i = .flush (.sweeping version liveIds .tier))
      (hdone : ∀ id, s.files id ≠ none → id ∈ liveIds) :
      FlushMove fanout i s ((s.drop (some version)).setThread i (.flush .compacting))
  | discard {version : Arc Version} {t : Arc Memtable} {rest : List (Arc Memtable)}
      (h : s.threads i = .flush (.discarding version t rest)) :
      FlushMove fanout i s
        ({ s with memtables := s.memtables.discardFrozen t }.drop (some version) |>.setThread i
          (.flush (.looping rest)))
  | looped (h : s.threads i = .flush (.looping [])) :
      FlushMove fanout i s (s.setThread i (.flush .resetting))
  | reset (h : s.threads i = .flush .resetting) :
      FlushMove fanout i s ({ s with log := [] }.setThread i (.flush .compacting))
  | pick {t : Nat} (h : s.threads i = .flush .compacting)
      (hfull : firstFull fanout s.manifest.current.val = some t) :
      FlushMove fanout i s ({ s with manifest := s.manifest.pin }.setThread i
        (.flush (.merging s.manifest.current t)))
  | settled (h : s.threads i = .flush .compacting)
      (hfull : firstFull fanout s.manifest.current.val = none) :
      FlushMove fanout i s (s.release i true)
  | merge {version : Arc Version} {t : Nat} (h : s.threads i = .flush (.merging version t))
      (hread : ∀ table ∈ version.val.tiers[t]?.getD [], s.files table.id ≠ none)
      (hfree : s.files version.val.nextTableId = none) :
      FlushMove fanout i s ((s.writeFile version.val.nextTableId
        (compactOutput version.val s.contents t)).setThread i
          (.flush (.installing version (version.val.merged t (outputMeta version.val.nextTableId
            (compactOutput version.val s.contents t))) .tier)))
  | abort {f : Flushing} (h : s.threads i = .flush f) (hf : f.Fallible) :
      FlushMove fanout i s ((s.drop f.pin).release i false)
  /-- The write of a table fails part-way. -/
  | spoil {f : Flushing} {version : Arc Version} (junk : List Entry) (h : s.threads i = .flush f)
      (hf : (∃ t rest, f = .writing version t rest) ∨ ∃ t, f = .merging version t)
      (hfree : s.files version.val.nextTableId = none) :
      FlushMove fanout i s
        ({ s with files := Function.update s.files version.val.nextTableId (some junk) }.drop f.pin
          |>.release i false)

/-- A reader goes on. -/
inductive ReadMove (i : Nat) (s : Shared) : Shared → Prop
  | hit {key : Bytes} {since : Nat} {v : InternalValue}
      (h : s.threads i = .read (.getting key since)) (hv : s.memtables.get key = some v) :
      ReadMove i s (s.setThread i (.read (.got key since s.applied.length v.asValue)))
  | miss {key : Bytes} {since : Nat} (h : s.threads i = .read (.getting key since))
      (hv : s.memtables.get key = none) :
      ReadMove i s (s.setThread i (.read (.missed key since)))
  | pin {key : Bytes} {since : Nat} (h : s.threads i = .read (.missed key since)) :
      ReadMove i s ({ s with manifest := s.manifest.pin }.setThread i (.read
        (.walking key since s.manifest.current s.manifest.current.val.tablesNewestFirst)))
  | skip {key : Bytes} {since : Nat} {version : Arc Version} {table : TableMeta}
      {tables : List TableMeta}
      (h : s.threads i = .read (.walking key since version (table :: tables)))
      (hk : table.keyInRange key = false) :
      ReadMove i s (s.setThread i (.read (.walking key since version tables)))
  | found {key : Bytes} {since : Nat} {version : Arc Version} {table : TableMeta}
      {tables : List TableMeta} {es : List Entry} {v : InternalValue}
      (h : s.threads i = .read (.walking key since version (table :: tables)))
      (hk : table.keyInRange key = true) (hes : s.files table.id = some es)
      (hv : layerOf es key = some v) :
      ReadMove i s ((s.drop (some version)).setThread i
        (.read (.got key since s.applied.length v.asValue)))
  | notHere {key : Bytes} {since : Nat} {version : Arc Version} {table : TableMeta}
      {tables : List TableMeta} {es : List Entry}
      (h : s.threads i = .read (.walking key since version (table :: tables)))
      (hk : table.keyInRange key = true) (hes : s.files table.id = some es)
      (hv : layerOf es key = none) :
      ReadMove i s (s.setThread i (.read (.walking key since version tables)))
  | nowhere {key : Bytes} {since : Nat} {version : Arc Version}
      (h : s.threads i = .read (.walking key since version [])) :
      ReadMove i s ((s.drop (some version)).setThread i
        (.read (.got key since s.applied.length none)))
  | capture {range : KeyRange} {since : Nat} {memory : List (List Entry)}
      (h : s.threads i = .read (.scanning range since))
      (hm : s.memtables.scanIters range = some memory) :
      ReadMove i s (s.setThread i (.read (.captured range since s.applied.length memory)))
  | pinScan {range : KeyRange} {since looked : Nat} {memory : List (List Entry)}
      (h : s.threads i = .read (.captured range since looked memory)) :
      ReadMove i s ({ s with manifest := s.manifest.pin }.setThread i (.read
        (.gathering range since looked s.applied.length memory s.manifest.current []
          s.manifest.current.val.allTables)))
  | gather {range : KeyRange} {since looked pinned : Nat} {memory sources : List (List Entry)}
      {version : Arc Version} {table : TableMeta} {tables : List TableMeta} {es : List Entry}
      (h : s.threads i = .read
        (.gathering range since looked pinned memory version sources (table :: tables)))
      (hes : s.files table.id = some es) :
      ReadMove i s (s.setThread i (.read (.gathering range since looked pinned memory version
        (sources ++ [es.filter fun e => rangeContains range e.1]) tables)))
  | merge {range : KeyRange} {since looked pinned : Nat} {memory sources : List (List Entry)}
      {version : Arc Version}
      (h : s.threads i = .read (.gathering range since looked pinned memory version sources [])) :
      ReadMove i s ((s.drop (some version)).setThread i (.read
        (.scanned range since looked pinned s.applied.length sources
          (MergeIterator.new (memory ++ sources)).live)))
  | loseGet {key : Bytes} {since : Nat} {version : Arc Version} {table : TableMeta}
      {tables : List TableMeta}
      (h : s.threads i = .read (.walking key since version (table :: tables)))
      (hk : table.keyInRange key = true) (hes : s.files table.id = none) :
      ReadMove i s ((s.drop (some version)).setThread i (.read .lost))
  | loseScan {range : KeyRange} {since looked pinned : Nat} {memory sources : List (List Entry)}
      {version : Arc Version} {table : TableMeta} {tables : List TableMeta}
      (h : s.threads i = .read
        (.gathering range since looked pinned memory version sources (table :: tables)))
      (hes : s.files table.id = none) :
      ReadMove i s ((s.drop (some version)).setThread i (.read .lost))

/-- A thread goes on, or makes a new call. -/
inductive Step (fanout : Nat) (s : Shared) : Shared → Prop
  | write {s' : Shared} {i : Nat} (h : WriteMove i s s') : Step fanout s s'
  | flush {s' : Shared} {i : Nat} (h : FlushMove fanout i s s') : Step fanout s s'
  | read {s' : Shared} {i : Nat} (h : ReadMove i s s') : Step fanout s s'
  | callWrite {i : Nat} (key : Bytes) (kind : ValueKind) (h : (s.threads i).Done) :
      Step fanout s (s.setThread i (.write (.claiming key kind)))
  | callFlush {i : Nat} (h : (s.threads i).Done) :
      Step fanout s (s.setThread i (.flush .entering))
  | callGet {i : Nat} (key : Bytes) (h : (s.threads i).Done) :
      Step fanout s (s.setThread i (.read (.getting key s.applied.length)))
  | callScan {i : Nat} (range : KeyRange) (h : (s.threads i).Done) :
      Step fanout s (s.setThread i (.read (.scanning range s.applied.length)))

abbrev Runs (fanout : Nat) : Shared → Shared → Prop := Relation.ReflTransGen (Step fanout)

end Shared

end AccretionDb.Db
