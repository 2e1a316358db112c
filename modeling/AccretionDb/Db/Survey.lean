import AccretionDb.Db.Crash

/-! # The order of the store

What a maintainer can count on between two calls, whatever the client did before and
however often the power went: the layout of the tiers, the order of the layers and the
clock (`in_order`), and that a flush which fails at any of its storage calls changes no
answer (`flush_changes_no_answer`).
-/

namespace AccretionDb.Db

open CrashLogic

/-! ### The order of a handle -/

/-- The acknowledged writes have numbers of their own, in the order of their calls. -/
theorem Written.acked {ws : List Attempt} {H : History Bytes InternalValue} (h : Written ws H) :
    Rising (entries (ws.filter Attempt.acked)) := by
  obtain ⟨kept, hc, hr, -⟩ := h
  rw [← hc.2]
  exact hr.sublist (List.filter_sublist.map _)

section Hashed

variable [TableHashing] {cfg : Config}

/-- **A handle in order.**  In every tier ids ascend, no two tables have one id and the next
id is behind them all; the metadata of every table is that of its file; from the active
memtable down to the oldest table the versions of a key get older; and the next sequence
number is behind all that are in a layer or in a record that a recovery of the log would
find. -/
structure InOrder (cfg : Config) (fs : SimFs) (db : Db) (T : Contents) : Prop where
  ascending : ∀ tier ∈ db.manifest.current.val.tiers, (tier.map TableMeta.id).Pairwise (· < ·)
  distinct : db.manifest.current.val.referencedIds.Nodup
  below : ∀ id ∈ db.manifest.current.val.referencedIds, id < db.manifest.current.val.nextTableId
  files : ∀ id ∈ db.manifest.current.val.referencedIds,
    ∃ c, fs.contents (tablePath cfg.dir id) = some c ∧ Table c (T id)
  described : db.manifest.current.val.Describes T
  ordered : Ordered (db.memtables.layers ++ db.manifest.current.val.layers T)
  claimed : ∀ l ∈ db.memtables.layers ++ db.manifest.current.val.layers T, ∀ key v,
    l key = some v → v.seq < db.write.nextSeq
  logged : ∃ wal rec fs', fs.exec (Wal.open cfg.wal) () = some (.ok (wal, rec), fs', ()) ∧
    ∀ p ∈ rec.records, ∃ r, decodeRecord p = .ok r ∧ r.seq < db.write.nextSeq

/-- What a recovery of the log would find now. -/
theorem Stands.logged {A : History Bytes InternalValue} {since : List Entry} {L : Wal.Layout}
    {T : Contents} {fs : SimFs} {db : Db} (ht : fs.Tidy) (h : Stands cfg A since L T (fs.disk, db)) :
    ∃ wal rec fs', fs.exec (Wal.open cfg.wal) () = some (.ok (wal, rec), fs', ()) ∧
      ∀ p ∈ rec.records, ∃ r, decodeRecord p = .ok r ∧ r.seq < db.write.nextSeq := by
  have hopen : wpE (Disk.sem Faults.none) False False (fun _ => True) (Wal.open cfg.wal)
      (fun x _ => x.2.records = L.log) (fun _ _ => False) (fs.disk, ()) :=
    Wal.wpE_reopen (.none _) trivial h.ready.holds fun _ _ _ hrec _ => hrec
  obtain ⟨⟨wal, rec⟩, fs', _, hrun, -, hrec⟩ := SimFs.exec_ok ht hopen
  refine ⟨wal, rec, fs', hrun, fun p hp => ?_⟩
  rw [show rec.records = L.log from hrec, h.log] at hp
  obtain ⟨e, he, rfl⟩ := List.mem_map.mp hp
  obtain ⟨hseq, hlen⟩ := h.later.loggable e he
  exact ⟨_, decodeRecord_payload (by omega) hlen, h.claimed e.1 e.2 (Or.inr he)⟩

/-- **A handle that stands is in order.** -/
theorem Stands.inOrder {A : History Bytes InternalValue} {since : List Entry} {L : Wal.Layout}
    {T : Contents} {fs : SimFs} {db : Db} (ht : fs.Tidy) (h : Stands cfg A since L T (fs.disk, db)) :
    InOrder cfg fs db T := by
  have hreads := Shelf.mem h.shelf
  obtain ⟨B, -, hst⟩ := hreads.stacked
  refine ⟨hreads.laidOut.ascending, hreads.laidOut.nodup, fun id hid => ?_,
    fun id hid => ?_, hreads.arranged.describes, hst.stack_ordered, fun l hl key v hv => ?_,
    h.logged ht⟩
  · obtain ⟨table, hm, rfl⟩ := List.mem_map.mp hid
    exact hreads.arranged.below table hm
  · obtain ⟨c, hc, htable⟩ := hreads.kept id hid
    refine ⟨c, ?_, htable⟩
    change (fs.disk (tablePath cfg.dir id)).live = _ at hc
    rw [ht.contents, hc, Option.map_some, Blob.content_mk, List.append_nil]
  · exact h.claimed key v (hst.stack_within l hl key v hv)

end Hashed

namespace World

section Hashed

variable [TableHashing] {cfg : Config} {may : Set Bool}

/-- The worlds that a client can come to: with power losses in a durable mode, and without
any in every mode. -/
def Visited (cfg : Config) (w : World) : Prop :=
  Reachable cfg (Fits cfg) w ∨ cfg.options.durability.isDurable ∧ Survivable cfg (Fits cfg) w

theorem Consistent.mono {w : World} (h : Consistent cfg may w) {may' : Set Bool}
    (hsub : may ⊆ may') : Consistent cfg may' w := by
  refine ⟨h.tidy, ?_⟩
  obtain ⟨fs, db, ws⟩ := w
  have hh := h.holds
  cases db with
  | some db =>
    obtain ⟨H, hH, hq⟩ := hh
    exact ⟨H, hH, hq.sound, hq.idle, hq.noFlush, hsub hq.next⟩
  | none => exact hh.mono hsub

theorem Visited.consistent {w : World} (h : Visited cfg w) : Consistent cfg Set.univ w := by
  rcases h with h | ⟨hdur, h⟩
  · exact h.consistent.1.mono (Set.subset_univ _)
  · exact h.consistent hdur

/-- **Between two calls the handle is in order**, and no two acknowledged writes share a
sequence number. -/
theorem in_order {w : World} (h : Visited cfg w) {db : Db} (hdb : w.db = some db) :
    (∃ T, InOrder cfg w.fs db T) ∧ Rising (entries (w.writes.filter Attempt.acked)) ∧
      ∀ a ∈ w.writes, a.acked = true → a.entry.2.seq < db.write.nextSeq := by
  obtain ⟨ht, hh⟩ := h.consistent
  rw [Holds, hdb] at hh
  obtain ⟨H, hH, hq⟩ := hh
  obtain ⟨A, since, L, T, -, hst⟩ := hq.sound
  refine ⟨⟨T, hst.inOrder ht⟩, hH.acked, fun a ha hacked => ?_⟩
  obtain ⟨kept, hc, -, rfl⟩ := hH
  have hkept : a ∈ kept.filter Attempt.acked := by
    rw [hc.2]
    exact List.mem_filter.mpr ⟨ha, hacked⟩
  exact hq.sound.claimed a.entry.1 a.entry.2 (List.mem_map_of_mem (List.mem_filter.mp hkept).1)

/-! ### A flush that fails -/

/-- **A flush changes no answer**, whichever of its storage calls fail and whatever it
returns; and in a durable mode a power loss after it takes no acknowledged write away.
What it finds in the log is synced, so that no checksum is needed. -/
theorem flush_changes_no_answer {w : World} (h : Visited cfg w) {db : Db} (hdb : w.db = some db)
    (hroom : Room cfg db) {e : Faults} {r : Except DbError Unit} {fs' : SimFs} {db' : Db}
    (hrun : Runs (SimFs.sem e) True (flush cfg) (w.fs, db) r (fs', db')) :
    ∃ m, Answers cfg w.fs db m ∧ Answers cfg fs' db' m ∧
      (cfg.options.durability.isDurable → Recovers cfg ⟨fs'.crash, none, w.writes⟩) := by
  obtain ⟨ht, hh⟩ := h.consistent
  rw [Holds, hdb] at hh
  obtain ⟨H, hH, hq⟩ := hh
  obtain ⟨kept, hc, hm⟩ := hH.means
  have hflush : wpE (Disk.sem e) True True (Steady cfg H) (flush cfg) (fun _ _ => True)
      (fun _ _ => True) (w.fs.disk, db) :=
    wpE_flushLocked_sound hq.sound hq.idle hroom (fun _ _ _ _ => trivial)
      (fun _ _ _ _ _ => trivial) fun _ _ _ _ _ _ _ => trivial
  obtain ⟨⟨ht', hsteady⟩, -⟩ := wp_completes (wpE_iff.mp (SimFs.wp_exec ht hflush)) hrun
  change Steady cfg H (fs'.disk, db') at hsteady
  obtain ⟨A, T, hreads⟩ := hsteady.reads
  refine ⟨_, hq.sound.answers ht hm, hreads.answers ht' hm, fun hdur => ?_⟩
  have hsafe : Safe cfg (Written w.writes) fs'.disk := hsteady.safe.mono fun _ he => he ▸ hH
  have hc := SimFs.crash_refines ht'
  have hcrash : Consistent cfg Set.univ ⟨fs'.crash, none, w.writes⟩ :=
    ⟨SimFs.crash_tidy ht', hsafe.crash hdur hc fun _ _ _ hg hb =>
      .of_synced hc hg hb (hsteady.synced hdur hg)⟩
  exact hcrash.recovers rfl

end Hashed

attribute [local instance] TableHashing.emptyKey

/-- A newer value in memory, over a table that was merged. -/
theorem in_order_demo : ∃ w db, Visited eagerConfig w ∧ w.db = some db ∧ w.writes.length = 5 ∧
    db.manifest.current.val.tiers.map (·.map TableMeta.id) = [[], [3]] ∧
    ∃ T, InOrder eagerConfig w.fs db T := by
  obtain ⟨w, db, hw, hdb, hlen, htiers⟩ := exists_mergeTables
  exact ⟨w, db, Or.inl hw, hdb, hlen, htiers, (in_order (Or.inl hw) hdb).1⟩

/-- Any call may fail. -/
def anyFails : Faults := ⟨fun _ => True, fun _ _ _ => True⟩

/-- The next segment of the log. -/
def createsSegment : StorageOp → Bool
  | .create ⟨_, .wal _⟩ => true
  | _ => false

/-- A flush with a table and a tombstone, in which `Wal::reset` fails: the table is written
and the log stays. -/
theorem flush_changes_no_answer_demo : ∃ w db err fs' db' m, Visited eagerConfig w ∧
    w.db = some db ∧ w.writes.length = 3 ∧
    Runs (SimFs.sem anyFails) True (flush eagerConfig) (w.fs, db) (.error err) (fs', db') ∧
    Answers eagerConfig w.fs db m ∧ Answers eagerConfig fs' db' m ∧
    Recovers eagerConfig ⟨fs'.crash, none, w.writes⟩ := by
  have hend : ((callAll eagerConfig [.open, .command (.put [1] [10]), .command (.put [2] [20]),
      .command .flush, .command (.delete [1])]).bind fun w => w.db.bind fun db =>
        (eval (memRun (SimFs.runBut createsSegment)) (flush eagerConfig).run (w.fs, db)).map fun x =>
          (w.writes.length, decide ((flush eagerConfig).run.Exact (SimFs.runBut createsSegment)
            (w.fs, db)), db.manifest.current.val.nextTableId, db.memtables.frozen.length,
            x.1.isOk)) = some (3, true, 2, 0, false) := by decide +kernel
  obtain ⟨w, hw, hend⟩ := Option.bind_eq_some_iff.mp hend
  obtain ⟨db, hdb, hend⟩ := Option.bind_eq_some_iff.mp hend
  obtain ⟨⟨r, fs', db'⟩, hflush, hend⟩ := Option.map_eq_some_iff.mp hend
  simp only [Prod.mk.injEq] at hend
  obtain ⟨hlen, hexact, hid, hfrozen, hr⟩ := hend
  cases r with
  | ok u => cases hr
  | error err =>
    have hroom : Room eagerConfig db := by
      show db.manifest.current.val.nextTableId + (db.memtables.frozen.length + 1) + 2 < 2 ^ 64
      rw [hid, hfrozen]
      decide
    have hv : Visited eagerConfig w := Or.inl (reachable_of_callAll hw)
    have hrun : Runs (SimFs.sem anyFails) True (flush eagerConfig) (w.fs, db) (.error err)
        (fs', db') :=
      completes_of_exact (SimFs.step_runBut fun _ _ => trivial) (fun _ => of_decide_eq_true hexact)
        hflush
    obtain ⟨m, hbefore, hafter, hcrash⟩ := flush_changes_no_answer hv hdb hroom hrun
    exact ⟨w, db, err, fs', db', m, hv, hdb, hlen, hrun, hbefore, hafter, hcrash rfl⟩

end World

end AccretionDb.Db
