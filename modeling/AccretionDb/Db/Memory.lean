import AccretionDb.Compaction.Merge
import AccretionDb.Db.Open
import AccretionDb.Db.Run
import AccretionDb.Lib.Keep

/-! # What the memory holds

A memtable counts its bytes exactly, whatever is put into it.  A flush freezes the active
table only if it counts any bytes, so none of its entries is left behind when the log is
released (`accounting_exact`).

After a restart the active table is made from the log.  Writers reach the log out of order,
and a retried batch is there twice; what comes of the replay is a matter of which records
there are (`replay_depends_on_set`).
-/

namespace AccretionDb

open CrashLogic

/-! ### The largest of some numbers -/

theorem foldl_max_le {α : Type} (f : α → Nat) {b : Nat} : ∀ (es : List α) (n : Nat),
    es.foldl (fun n e => max n (f e)) n ≤ b ↔ n ≤ b ∧ ∀ e ∈ es, f e ≤ b := by
  intro es
  induction es with
  | nil => exact fun n => ⟨fun h => ⟨h, fun _ he => absurd he List.not_mem_nil⟩, fun h => h.1⟩
  | cons e es ih =>
    intro n
    rw [List.foldl_cons, ih, Nat.max_le, List.forall_mem_cons, and_assoc]

/-- Only the set of the numbers matters. -/
theorem foldl_max_congr {α : Type} (f : α → Nat) {es es' : List α} (h : ∀ e, e ∈ es' ↔ e ∈ es)
    (n : Nat) : es'.foldl (fun n e => max n (f e)) n = es.foldl (fun n e => max n (f e)) n := by
  obtain ⟨hn, hes⟩ := (foldl_max_le f es n).mp (Nat.le_refl _)
  obtain ⟨hn', hes'⟩ := (foldl_max_le f es' n).mp (Nat.le_refl _)
  apply Nat.le_antisymm
  · exact (foldl_max_le f es' n).mpr ⟨hn, fun e he => hes e ((h e).mp he)⟩
  · exact (foldl_max_le f es n).mpr ⟨hn', fun e he => hes' e ((h e).mpr he)⟩

/-- The same numbers once more change nothing. -/
theorem foldl_max_again {α : Type} (f : α → Nat) {es es' : List α} (h : ∀ e, e ∈ es' ↔ e ∈ es)
    (n : Nat) : es'.foldl (fun n e => max n (f e)) (es.foldl (fun n e => max n (f e)) n) =
      es.foldl (fun n e => max n (f e)) n := by
  obtain ⟨-, hes⟩ := (foldl_max_le f es n).mp (Nat.le_refl _)
  apply Nat.le_antisymm
  · exact (foldl_max_le f es' _).mpr ⟨Nat.le_refl _, fun e he => hes e ((h e).mp he)⟩
  · exact ((foldl_max_le f es' _).mp (Nat.le_refl _)).1

/-! ### Replaying a set of records -/

namespace Memtable

/-- Two tables with the same versions have the same entries, and are charged the same. -/
theorem snapshot_congr {t t' : Memtable} (h : ∀ key, t'.versions key = t.versions key) :
    t'.snapshot = t.snapshot :=
  t'.ascending_snapshot.ext t.ascending_snapshot fun key => by
    rw [layerOf_snapshot, layerOf_snapshot, h]

theorem approxBytes_congr {t t' : Memtable} (h : t'.snapshot = t.snapshot) :
    t'.approxBytes = t.approxBytes := by
  rw [t'.exact, t.exact, chargedBytes, chargedBytes]
  exact congrArg (fun es => (es.map fun e => entryBytes e.1 e.2).sum) h

/-- Offering what the table has already, or something older, changes nothing. -/
theorem foldl_of_le {t : Memtable} : ∀ {es : List Entry},
    (∀ e ∈ es, ∃ u, t.versions e.1 = some u ∧ e.2.seq ≤ u.seq) →
      es.foldl (fun t e => t.insertIfNewer e.1 e.2) t = t := by
  intro es
  induction es with
  | nil => exact fun _ => rfl
  | cons e es ih =>
    intro h
    obtain ⟨u, hu, hle⟩ := h e List.mem_cons_self
    rw [List.foldl_cons, insertIfNewer_of_le hu hle]
    exact ih fun x hx => h x (List.mem_cons_of_mem e hx)

end Memtable

/-- Offer the records one by one. -/
def MemtableSet.offerAll (rs : List Record) (s : MemtableSet) : MemtableSet :=
  rs.foldl (fun s r => s.insertIfNewer r.key r.value) s

theorem MemtableSet.offerAll_eq : ∀ (rs : List Record) (s : MemtableSet), s.offerAll rs =
    { s with active := (rs.map Record.entry).foldl (fun t e => t.insertIfNewer e.1 e.2) s.active } := by
  intro rs
  induction rs with
  | nil => exact fun _ => rfl
  | cons r rs ih => exact fun s => ih (s.insertIfNewer r.key r.value)

/-- Records of one key with one sequence number have one value. -/
def OneValue (rs : List Record) : Prop :=
  ∀ r ∈ rs, ∀ r' ∈ rs, r.key = r'.key → r.value.seq = r'.value.seq → r.value = r'.value

theorem OneValue.coherent {rs : List Record} (h : OneValue rs) :
    Coherent (History.ofList (rs.map Record.entry)) := by
  intro k v w hv hw heq
  obtain ⟨r, hr, he⟩ := List.mem_map.mp hv
  obtain ⟨r', hr', he'⟩ := List.mem_map.mp hw
  obtain ⟨rfl, rfl⟩ := Prod.mk.inj he
  obtain ⟨hk, rfl⟩ := Prod.mk.inj he'
  exact h r hr r' hr' hk.symm heq

/-- A fresh table holds, for every key, the newest of the records. -/
theorem OneValue.replays {rs : List Record} (h : OneValue rs) :
    Replays ((rs.map Record.entry).foldl (fun t e => t.insertIfNewer e.1 e.2) Memtable.new).versions
      (History.ofList (rs.map Record.entry)) :=
  Memtable.replays_new h.coherent

/-- **What a replay gives**: the record with the largest sequence number of each key. -/
theorem OneValue.versions_iff {rs : List Record} (h : OneValue rs) (key : Bytes)
    (v : InternalValue) :
    ((rs.map Record.entry).foldl (fun t e => t.insertIfNewer e.1 e.2) Memtable.new).versions key =
        some v ↔
      ∃ r ∈ rs, r.key = key ∧ r.value = v ∧
        ∀ r' ∈ rs, r'.key = key → r'.value.seq ≤ r.value.seq := by
  constructor
  · intro hv
    obtain ⟨hmem, hmax⟩ := h.replays.found key v hv
    obtain ⟨r, hr, he⟩ := List.mem_map.mp hmem
    obtain ⟨rfl, rfl⟩ := Prod.mk.inj he
    refine ⟨r, hr, rfl, rfl, fun r' hr' hk => ?_⟩
    exact (hmax r'.value (List.mem_map.mpr ⟨r', hr', Prod.ext hk rfl⟩)).stamp_le
  · rintro ⟨r, hr, rfl, rfl, hmax⟩
    have hmem : History.ofList (rs.map Record.entry) r.key r.value :=
      List.mem_map.mpr ⟨r, hr, rfl⟩
    cases hu : ((rs.map Record.entry).foldl (fun t e => t.insertIfNewer e.1 e.2)
        Memtable.new).versions r.key with
    | none => exact absurd hmem (h.replays.missing r.key hu r.value)
    | some u =>
      obtain ⟨hmem', hmax'⟩ := h.replays.found r.key u hu
      obtain ⟨r', hr', he⟩ := List.mem_map.mp hmem'
      obtain ⟨hk, rfl⟩ := Prod.mk.inj he
      exact congrArg some ((hmax' r.value hmem).eq_of_le (hmax r' hr' hk)).symm

namespace Db

/-- **A replay depends only on the set of the records.**  Lists of the same records, in
any order and with any repetitions, give the same entries, the same count of bytes and in
`open_on` the same next sequence number, and a second replay on top changes nothing. -/
theorem replay_depends_on_set {rs rs' : List Record} (hone : OneValue rs)
    (hsame : ∀ r, r ∈ rs' ↔ r ∈ rs) (maxBytes floor : Nat) :
    (∀ key v, ((MemtableSet.new maxBytes).offerAll rs).active.get key = some v ↔
      ∃ r ∈ rs, r.key = key ∧ r.value = v ∧
        ∀ r' ∈ rs, r'.key = key → r'.value.seq ≤ r.value.seq) ∧
    ((MemtableSet.new maxBytes).offerAll rs').active.snapshot =
      ((MemtableSet.new maxBytes).offerAll rs).active.snapshot ∧
    ((MemtableSet.new maxBytes).offerAll rs').activeBytes =
      ((MemtableSet.new maxBytes).offerAll rs).activeBytes ∧
    ((MemtableSet.new maxBytes).offerAll rs).offerAll rs' = (MemtableSet.new maxBytes).offerAll rs ∧
    ∀ ps ps' : List Bytes, ps.map decodeRecord = rs.map Except.ok →
      ps'.map decodeRecord = rs'.map Except.ok → ∃ nextSeq,
        replayRecords ps (.new maxBytes, floor) =
          .ok ((MemtableSet.new maxBytes).offerAll rs, nextSeq) ∧
        replayRecords ps' (.new maxBytes, floor) =
          .ok ((MemtableSet.new maxBytes).offerAll rs', nextSeq) ∧
        replayRecords ps' ((MemtableSet.new maxBytes).offerAll rs, nextSeq) =
          .ok ((MemtableSet.new maxBytes).offerAll rs, nextSeq) := by
  have hone' : OneValue rs' := fun r hr r' hr' =>
    hone r ((hsame r).mp hr) r' ((hsame r').mp hr')
  have hversions : ∀ key, ((rs'.map Record.entry).foldl (fun t e => t.insertIfNewer e.1 e.2)
      Memtable.new).versions key = ((rs.map Record.entry).foldl
        (fun t e => t.insertIfNewer e.1 e.2) Memtable.new).versions key := by
    intro key
    refine Option.ext fun v => ?_
    rw [hone.versions_iff, hone'.versions_iff]
    simp only [hsame]
  have hsnapshot := Memtable.snapshot_congr hversions
  have hagain : ((MemtableSet.new maxBytes).offerAll rs).offerAll rs' =
      (MemtableSet.new maxBytes).offerAll rs := by
    rw [MemtableSet.offerAll_eq rs', MemtableSet.offerAll_eq rs]
    have hstays := @Memtable.foldl_of_le
      ((rs.map Record.entry).foldl (fun t e => t.insertIfNewer e.1 e.2) Memtable.new)
      (rs'.map Record.entry) fun e he => by
        obtain ⟨r, hr, rfl⟩ := List.mem_map.mp he
        exact Memtable.exists_foldl (List.mem_map_of_mem ((hsame r).mp hr))
    exact congrArg (fun t => { MemtableSet.new maxBytes with active := t }) hstays
  refine ⟨fun key v => ?_, ?_, ?_, hagain, fun ps ps' hps hps' => ?_⟩
  · rw [MemtableSet.offerAll_eq]
    exact hone.versions_iff key v
  · rw [MemtableSet.offerAll_eq, MemtableSet.offerAll_eq]
    exact hsnapshot
  · rw [MemtableSet.offerAll_eq, MemtableSet.offerAll_eq]
    exact Memtable.approxBytes_congr hsnapshot
  · refine ⟨rs.foldl (fun n r => max n ((r.seq + 1) % 2 ^ 64)) floor, ?_, ?_, ?_⟩
    · rw [replayRecords_eq _ _ hps, MemtableSet.offerAll_eq]
    · rw [replayRecords_eq _ _ hps', MemtableSet.offerAll_eq, foldl_max_congr _ hsame]
    · rw [replayRecords_eq _ _ hps', ← MemtableSet.offerAll_eq, hagain,
        foldl_max_again _ hsame]

/-- Two writes of one key in the log, in the other order and one of them twice. -/
theorem replay_depends_on_set_demo :
    letI new := Record.of 2 [] (.value [1])
    letI old := Record.of 1 [] .tombstone
    ((MemtableSet.new 64).offerAll [old, new, old]).activeBytes =
      ((MemtableSet.new 64).offerAll [new, old]).activeBytes :=
  (replay_depends_on_set (by
    intro r hr r' hr' _ hseq
    rcases List.mem_pair.mp hr with rfl | rfl <;> rcases List.mem_pair.mp hr' with rfl | rfl
    · rfl
    · cases hseq
    · cases hseq
    · rfl) (fun r => by
      simp only [List.mem_cons, List.not_mem_nil, or_false]
      constructor
      · rintro (rfl | rfl | rfl)
        · exact Or.inr rfl
        · exact Or.inl rfl
        · exact Or.inr rfl
      · rintro (rfl | rfl)
        · exact Or.inr (Or.inl rfl)
        · exact Or.inl rfl) 64 0).2.2.1

end Db

/-! ### Counting bytes -/

/-- What is put into a table. -/
inductive MemtableOp
  | insert (key : Bytes) (val : InternalValue)
  | insertIfNewer (key : Bytes) (val : InternalValue)

namespace MemtableOp

def apply (t : Memtable) : MemtableOp → Memtable
  | insert key val => t.insert key val
  | insertIfNewer key val => t.insertIfNewer key val

end MemtableOp

theorem MemtableSet.activeBytes_pos (s : MemtableSet) :
    s.activeBytes > 0 ↔ ∃ key v, s.active.get key = some v := by
  have hzero := s.active.approxBytes_eq_zero
  constructor
  · intro hpos
    by_contra hno
    refine Nat.ne_of_gt hpos (hzero.mpr fun key => ?_)
    cases hv : s.active.versions key with
    | none => rfl
    | some v => exact absurd ⟨key, v, hv⟩ hno
  · rintro ⟨key, v, hv⟩
    refine Nat.pos_of_ne_zero fun he => ?_
    have hnone : s.active.get key = none := hzero.mp he key
    rw [hnone] at hv
    cases hv

namespace Db

section Flush

variable [TableHashing] (self : Config)

/-- The part of `flush_quiesced` before the log is released. -/
def flushTables : Io Db DbError Unit := do
  Act.modify (onMemtables freezeActive)
  let db ← Act.get
  flushFrozen self db.write.nextSeq db.memtables.frozen

theorem flushQuiesced_eq : flushQuiesced self = (do
    flushTables self
    (Act.zoom walPart (Wal.reset self.wal)).mapError .storage
    (Act.zoom manifestPart (Manifest.cascade self.dir self.options.tierFanout self.rounds)).mapError
      .compaction) := by
  simp only [flushQuiesced, flushTables, bind_assoc]

variable {self}

/-- Nothing is left in the active table. -/
def NothingActive (σ : Unit × Db) : Prop := ∀ key, σ.2.memtables.active.get key = none

omit [TableHashing] in
/-- The manifest is not the memory. -/
theorem keeps_manifestPart {ε α : Type} (p : Io Manifest ε α) :
    Keeps AnyStorage False NothingActive (Act.zoom manifestPart p) := by
  refine Keeps.zoom manifestPart fun db τ h => ?_
  exact wpE_trivial (fun _ _ => trivial) (fun _ _ => h) (fun _ _ => h) τ

/-- The loop over the frozen tables puts nothing into the active one. -/
theorem keeps_flushFrozen (nextSeq : Nat) : ∀ ts : List (Arc Memtable),
    Keeps AnyStorage False NothingActive (flushFrozen self nextSeq ts) := by
  intro ts
  induction ts with
  | nil => exact .pure ()
  | cons t ts ih =>
    refine .bind (.bind (keeps_manifestPart _) fun version => ?_) fun _ => ih
    refine .bind (.attempt (.bind (keeps_manifestPart _) fun _ => ?_)) fun result => ?_
    · exact .modify fun _ h => h
    · exact .bind (keeps_manifestPart _) fun _ => .ofExcept result

theorem wpE_flushTables (db : Db) : wpE AnyStorage False True (fun _ => True) (flushTables self)
    (fun _ => NothingActive) (fun _ => NothingActive) ((), db) := by
  refine wpE_bind.mpr (wpE_modify trivial trivial ?_)
  have hnone : NothingActive ((), onMemtables freezeActive db) :=
    active_freezeActive db.memtables
  refine wpE_bind.mpr (wpE_get trivial ?_)
  exact keeps_flushFrozen db.write.nextSeq _ _ hnone

end Flush

end Db

/-- **The count of bytes is exact**, so that an overwrite never gives back more than was
charged, the count is positive exactly if there is an entry, and `flush_quiesced` gets to
the release of the log, whatever the storage answers, only with an empty active table. -/
theorem accounting_exact [TableHashing] (ops : List MemtableOp) :
    (ops.foldl MemtableOp.apply .new).approxBytes =
      ((ops.foldl MemtableOp.apply .new).snapshot.map fun e =>
        e.1.length + e.2.payloadBytes + 32).sum ∧
    (∀ key prev, (ops.foldl MemtableOp.apply .new).get key = some prev →
      key.length + prev.payloadBytes + 32 ≤ (ops.foldl MemtableOp.apply .new).approxBytes) ∧
    (∀ s : MemtableSet, s.active = ops.foldl MemtableOp.apply .new →
      (s.activeBytes > 0 ↔ ∃ key v, s.active.get key = some v)) ∧
    ∀ (self : Db.Config) (db db' : Db),
      Db.flushQuiesced self = (do
        Db.flushTables self
        (Act.zoom Db.walPart (Wal.reset self.wal)).mapError .storage
        (Act.zoom Db.manifestPart
          (Manifest.cascade self.dir self.options.tierFanout self.rounds)).mapError .compaction) ∧
      (Completes (memSem AnyStorage False) (Db.flushTables self).run ((), db) (.ok ()) ((), db') →
        ∀ key, db'.memtables.active.get key = none) := by
  refine ⟨(ops.foldl MemtableOp.apply .new).exact, fun key prev h => Memtable.entryBytes_le h,
    fun s _ => s.activeBytes_pos, fun self db db' => ⟨Db.flushQuiesced_eq self, fun hrun => ?_⟩⟩
  exact (wp_completes (wpE_iff.mp (Db.wpE_flushTables db)) hrun).2

attribute [local instance] TableHashing.emptyKey

/-- Two keys, one of them written twice, and the flush of a table with two keys. -/
theorem accounting_exact_demo :
    ([.insertIfNewer [1] ⟨1, .value [10]⟩, .insert [2] ⟨2, .tombstone⟩,
        .insertIfNewer [1] ⟨3, .value [11, 12]⟩].foldl MemtableOp.apply .new).approxBytes = 68 ∧
    ∃ db db' : Db, db.memtables.active.approxBytes = 68 ∧
      Completes (memSem AnyStorage False) (Db.flushTables Db.demoConfig).run ((), db) (.ok ())
        ((), db') ∧
      ∀ key, db'.memtables.active.get key = none := by
  obtain ⟨hcount, -, -, hflush⟩ := accounting_exact [.insertIfNewer [1] ⟨1, .value [10]⟩,
    .insert [2] ⟨2, .tombstone⟩, .insertIfNewer [1] ⟨3, .value [11, 12]⟩]
  refine ⟨hcount.trans (by decide +kernel), ?_⟩
  have hend : ((Db.afterOpen Db.demoConfig [.put [1] [10], .delete [2], .put [1] [11, 12]]).bind
      fun x => (x.1.exec (Db.flushTables Db.demoConfig) x.2).map fun y =>
        (x.2.memtables.active.approxBytes, y.1.isOk)) = some (68, true) := by decide +kernel
  obtain ⟨⟨fs, db⟩, -, hend⟩ := Option.bind_eq_some_iff.mp hend
  obtain ⟨⟨r, fs', db'⟩, hexec, hend⟩ := Option.map_eq_some_iff.mp hend
  obtain ⟨hbytes, hr⟩ := Prod.mk.inj hend
  cases r with
  | error err => cases hr
  | ok u =>
    have hrun : Completes (memSem AnyStorage False) (Db.flushTables Db.demoConfig).run ((), db)
        (.ok ()) ((), db') :=
      completes_of_simulates (memSem_simulates SimFs.any_simulates False) (fun o _ => by
        cases o <;> trivial) (s := (fs, db)) trivial (SimFs.completes_of_exec hexec)
    exact ⟨db, db', hbytes, hrun, (hflush Db.demoConfig db db').2 hrun⟩

end AccretionDb
