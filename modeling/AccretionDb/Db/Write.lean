import AccretionDb.Db.Open
import AccretionDb.Db.Run

/-! # Writing a record

A write claims a sequence number, logs its record, and only then applies it.  So an
acknowledged write is one whose record the log took, whatever its length, and whether
the log can give it back is a matter of that length (`put_reversible_iff`).
-/

namespace AccretionDb

open CrashLogic

namespace Db

section Programs

variable [TableHashing] {self : Config} {s s₁ s' : SimFs} {db db' : Db} {key : Bytes}
variable {kind : ValueKind}

/-- A write that returns has logged its record. -/
theorem append_of_writeKind (h : s.exec (writeKind self key kind) db = some (.ok (), s', db')) :
    ∃ s₁ wal, s.exec (Wal.append self.wal (encodeRecord db.write.nextSeq key kind)) db.wal =
      some (.ok (), s₁, wal) := by
  obtain ⟨a, s₀, db₀, hclaim, h⟩ := SimFs.exec_bind h
  obtain ⟨rfl, rfl, rfl⟩ : db = a ∧ s = s₀ ∧ onWrite WriteState.claim db = db₀ := by
    have he := Option.some.inj hclaim
    exact ⟨Except.ok.inj (Prod.mk.inj he).1, (Prod.mk.inj (Prod.mk.inj he).2).1,
      (Prod.mk.inj (Prod.mk.inj he).2).2⟩
  by_cases hpend : db.write.flushPending = true
  · rw [if_pos hpend] at h
    cases h
  · rw [if_neg hpend] at h
    obtain ⟨res, s₁, db₁, happ, h⟩ := SimFs.exec_bind h
    rw [SimFs.exec_attempt, SimFs.exec_zoom, Option.map_map] at happ
    obtain ⟨⟨r, s₂, wal⟩, hlog, he⟩ := Option.map_eq_some_iff.mp happ
    obtain rfl : r = res := Except.ok.inj (Prod.mk.inj he).1
    cases r with
    | error err =>
      obtain ⟨_, _, _, _, h⟩ := SimFs.exec_bind h
      cases h
    | ok _ => exact ⟨s₂, wal, hlog⟩

/-- A write whose record is logged returns, if it does not fill the memtable. -/
theorem writeKind_of_append {wal : Wal.State} (hpend : db.write.flushPending = false)
    (happ : s.exec (Wal.append self.wal (encodeRecord db.write.nextSeq key kind)) db.wal =
      some (.ok (), s₁, wal))
    (hroom : (db.memtables.insertIfNewer key ⟨db.write.nextSeq, kind⟩).isFull = false) :
    ∃ db', s.exec (writeKind self key kind) db = some (.ok (), s₁, db') := by
  let db₁ := onWrite WriteState.claim db
  have hclaim : s.exec (Act.modifyGet (onWrite WriteState.claim) : Io Db DbError Db) db =
      some (.ok db, s, db₁) := rfl
  have hlog : s.exec ((Act.zoom walPart (Wal.append self.wal
      (encodeRecord db.write.nextSeq key kind))).attempt : Io Db DbError _) db₁ =
      some (.ok (.ok ()), s₁, { db₁ with wal := wal }) := by
    have hpart : walPart.get db₁ = db.wal := rfl
    rw [SimFs.exec_attempt, SimFs.exec_zoom, hpart, happ]
    rfl
  rw [writeKind, SimFs.exec_bind_of_ok _ hclaim, if_neg (by rw [hpend]; exact Bool.false_ne_true),
    SimFs.exec_bind_of_ok _ hlog]
  let db₂ : Db := onMemtables (MemtableSet.insertIfNewer key ⟨db.write.nextSeq, kind⟩)
    { db₁ with wal := wal }
  have hinsert : s₁.exec (Act.modify (onMemtables (MemtableSet.insertIfNewer key
      ⟨db.write.nextSeq, kind⟩)) : Io Db DbError Unit) { db₁ with wal := wal } =
      some (.ok (), s₁, db₂) := rfl
  have hunmark : s₁.exec (Act.modifyGet (onWrite WriteState.unmark) : Io Db DbError Db) db₂ =
      some (.ok db₂, s₁, onWrite WriteState.unmark db₂) := rfl
  refine ⟨onWrite WriteState.unmark db₂, ?_⟩
  show s₁.exec (Act.modify _ >>= _) _ = _
  rw [SimFs.exec_bind_of_ok _ hinsert, SimFs.exec_bind_of_ok _ hunmark]
  have hfull : db₂.memtables.isFull = false := hroom
  rw [hfull]
  rfl

/-- The first write to a new database returns, if it does not fill the memtable. -/
theorem exists_put_new (hdur : self.options.durability.isDurable) (rng : Nat → Nat)
    {value : Bytes} (hroom : value.length + 32 < self.options.memtableSize) :
    ∃ fs fs' db db', (SimFs.new rng).exec (openOn self) () = some (.ok db, fs, ()) ∧
      fs.exec (put self [] value) db = some (.ok (), fs', db') ∧ db.write.nextSeq = 1 := by
  obtain ⟨fs, wal, hopen, ht, htip, -⟩ := exists_open_new self rng
  have hnext : (fs.disk (Wal.segmentPath self.dir (Wal.succId 1))).live = none := by
    rw [Wal.succId_eq (by decide)]
    exact htip.buffers.next_free (by decide)
  obtain ⟨_, fs', wal', happ, -⟩ := SimFs.exec_ok (C := fun _ => True) ht
    (@Wal.wpE_append_batched self.wal False _ False _ _ _ (encodeRecord 1 [] (.value value)) hdur
      htip.buffers.last_live (fun _ => hnext) htip.writes htip.idle htip.queue htip.behind)
  let db := found .empty wal (.new self.options.memtableSize, 1)
  have hfull : (db.memtables.insertIfNewer [] ⟨1, .value value⟩).isFull = false := by
    have hcharged : (db.memtables.insertIfNewer [] ⟨1, .value value⟩).activeBytes =
        0 + (0 + value.length + 32) := rfl
    rw [MemtableSet.isFull, hcharged]
    refine decide_eq_false ?_
    show ¬ _ ≥ self.options.memtableSize
    omega
  obtain ⟨db', hput⟩ := @writeKind_of_append _ self _ _ db _ _ _ rfl happ hfull
  exact ⟨fs, fs', db, db', hopen, hput, rfl⟩

/-- **An acknowledged write comes back from the log exactly if its record fits a
frame.**  The log took the record in any case. -/
theorem put_reversible_iff {value : Bytes} (hseq : db.write.nextSeq < 2 ^ 64)
    (h : s.exec (put self key value) db = some (.ok (), s', db')) :
    (∃ s₁ wal, s.exec (Wal.append self.wal (encodeRecord db.write.nextSeq key (.value value)))
      db.wal = some (.ok (), s₁, wal)) ∧
    (Reversible db.write.nextSeq key (.value value) ↔
      (encodeRecord db.write.nextSeq key (.value value)).length < 2 ^ 32) :=
  ⟨append_of_writeKind h, reversible_iff hseq key (.value value)⟩

end Programs

/-- A new value of a key that has one in a table. -/
theorem put_reversible_demo : letI := TableHashing.emptyKey
    ∃ x y : SimFs × Db,
      afterOpen demoConfig [.put [3, 4] [30], .flush, .delete [5]] = some x ∧
      x.1.exec (put demoConfig [3, 4] [31, 32, 33]) x.2 = some (.ok (), y.1, y.2) ∧
      x.2.write.nextSeq = 3 ∧ Reversible x.2.write.nextSeq [3, 4] (.value [31, 32, 33]) := by
  let _ := TableHashing.emptyKey
  have hend : ((afterOpen demoConfig [.put [3, 4] [30], .flush, .delete [5]]).bind fun x =>
      (x.1.exec (put demoConfig [3, 4] [31, 32, 33]) x.2).map fun y =>
        (x.2.write.nextSeq, y.1.isOk)) = some (3, true) := by decide +kernel
  obtain ⟨x, hx, hend⟩ := Option.bind_eq_some_iff.mp hend
  obtain ⟨⟨r, s', db'⟩, hput, hend⟩ := Option.map_eq_some_iff.mp hend
  obtain ⟨hseq, hr⟩ := Prod.mk.inj hend
  cases r with
  | error err => cases hr
  | ok u =>
    refine ⟨x, (s', db'), hx, hput, hseq, ?_⟩
    refine (put_reversible_iff (by rw [hseq]; decide) hput).2.mpr ?_
    rw [hseq, length_encodeRecord]
    decide

/-- A memtable of eight gigabytes. -/
def largeConfig : Config := ⟨[100], ⟨.always, 2 ^ 33, 4⟩, 1⟩

/-- **A value of four gigabytes is acknowledged** and cannot be read back from the log. -/
theorem put_acknowledges_lost : letI := TableHashing.emptyKey
    ∃ fs fs' db db', ∃ value : Bytes, value.length = 2 ^ 32 ∧
      (SimFs.new fun _ => 0).exec (openOn largeConfig) () = some (.ok db, fs, ()) ∧
      fs.exec (put largeConfig [] value) db = some (.ok (), fs', db') ∧
      ¬ Reversible db.write.nextSeq [] (.value value) := by
  let _ := TableHashing.emptyKey
  obtain ⟨value, hvalue⟩ : ∃ value : Bytes, value.length = 2 ^ 32 :=
    ⟨List.replicate (2 ^ 32) 0, List.length_replicate⟩
  have hroom : value.length + 32 < largeConfig.options.memtableSize := by
    rw [hvalue]
    decide
  obtain ⟨fs, fs', db, db', hopen, hput, hseq⟩ := @exists_put_new _ largeConfig rfl
    (fun _ => 0) value hroom
  refine ⟨fs, fs', db, db', value, hvalue, hopen, hput, fun h => ?_⟩
  rw [hseq, reversible_iff (by decide), length_encodeRecord, kindLen, hvalue] at h
  exact absurd h (by decide)

end Db

end AccretionDb
