import AccretionDb.Db.Store

/-! # What a read answers

`get` walks down the memory and then the tables, and `scan` merges all of them; where
memory and shelf are in order both answer for the history (`wpE_get_reads`,
`wpE_scan_reads`).  A read changes nothing but the cache of readers.
-/

namespace AccretionDb.Db

open CrashLogic

variable [TableHashing]

section Read

variable {cfg : Config} {strict H : Prop} {d : Disk} {db : Db} {T : Contents}

/-- The handle after a read: the cache has more readers, and versions are held. -/
structure Warmed (cfg : Config) (d : Disk) (T : Contents) (db db' : Db) : Prop where
  wal : db'.wal = db.wal
  memtables : db'.memtables = db.memtables
  write : db'.write = db.write
  versions : db'.manifest.versions = db.manifest.versions
  cached : Cached cfg.dir d db.manifest.current.val T db'.readers

/-- The reader of a table is found in the cache or made. -/
theorem wpE_readerFor {db' : Db} {table : TableMeta} {Q : SsTableReader → Disk × Db → Prop}
    {R : DbError → Disk × Db → Prop} (hw : Warmed cfg d T db db')
    (hkept : Kept Slot.live cfg.dir d T db.manifest.current.val.referencedIds)
    (hbelow : table.id < db.manifest.current.val.nextTableId)
    (ht : table ∈ db.manifest.current.val.allTables)
    (hok : ∀ n db'', TableFile n (tableEntries (T table.id)) →
      (d (tablePath cfg.dir table.id)).live = some ⟨tableBytes n (tableEntries (T table.id)), []⟩ →
      Warmed cfg d T db db'' →
      Q (readerOf (tablePath cfg.dir table.id) n (tableEntries (T table.id))) (d, db'')) :
    wpE (Disk.sem Faults.none) strict H (fun _ => True) (readerFor cfg table) Q R (d, db') := by
  have hid : table.id ∈ db.manifest.current.val.referencedIds := List.mem_map_of_mem ht
  refine wpE_bind.mpr (wpE_get trivial ?_)
  dsimp only
  cases hr : db'.readers table.id with
  | some reader =>
    obtain ⟨n, hfile, rfl, hlive⟩ := hw.cached.reader _ _ hr hid
    exact wpE_pure.mpr ⟨trivial, hok n db' hfile hlive hw⟩
  | none =>
    obtain ⟨c, hlive, n, hfile, rfl⟩ := hkept table.id hid
    refine wpE_bind.mpr (wpE_scope (wpE_mapError (SsTableReader.wpE_open hfile trivial hlive
      (by rw [Blob.content_mk, List.append_nil]) ?_ fun ha => absurd ha Faults.not_any_none)))
    exact wpE_bind.mpr (wpE_modify trivial trivial (wpE_pure.mpr ⟨trivial,
      hok n _ hfile hlive ⟨hw.wal, hw.memtables, hw.write, hw.versions,
        hw.cached.insert hbelow hfile hlive⟩⟩))

/-- The walk over the tables. -/
theorem wpE_getTables {key : Bytes} {R : DbError → Disk × Db → Prop}
    (hkept : Kept Slot.live cfg.dir d T db.manifest.current.val.referencedIds)
    (hbelow : ∀ table ∈ db.manifest.current.val.allTables,
      table.id < db.manifest.current.val.nextTableId) :
    ∀ (tables : List TableMeta) {db' : Db} {Q : Option Bytes → Disk × Db → Prop},
      (∀ table ∈ tables, table ∈ db.manifest.current.val.allTables) → Warmed cfg d T db db' →
      (∀ db'', Warmed cfg d T db db'' → Q ((tables.findSome? fun table =>
        if table.keyInRange key then layerOf (T table.id) key else none).bind
          InternalValue.asValue) (d, db'')) →
      wpE (Disk.sem Faults.none) strict H (fun _ => True) (getTables cfg key tables) Q R
        (d, db') := by
  intro tables
  induction tables with
  | nil => exact fun _ hw hok => wpE_pure.mpr ⟨trivial, hok _ hw⟩
  | cons table tables ih =>
    intro db' Q hsub hw hok
    have ht := hsub table List.mem_cons_self
    have hrest : ∀ t ∈ tables, t ∈ db.manifest.current.val.allTables := fun t ht =>
      hsub t (List.mem_cons_of_mem _ ht)
    rw [getTables]
    by_cases hin : table.keyInRange key = true
    · rw [if_pos hin]
      refine wpE_bind.mpr (wpE_readerFor hw hkept (hbelow table ht) ht
        fun n db'' hfile hlive hw' => ?_)
      refine wpE_bind.mpr (wpE_scope (wpE_mapError (SsTableReader.wpE_get hfile trivial hlive
        (by rw [Blob.content_mk, List.append_nil]) ?_ fun ha => absurd ha Faults.not_any_none)))
      rw [searchBlock_tableEntries]
      cases hl : layerOf (T table.id) key with
      | some v =>
        have hq := hok db'' hw'
        rw [List.findSome?_cons, if_pos hin, hl] at hq
        refine wpE_pure.mpr ⟨trivial, ?_⟩
        show Q (internalOf v.seq (valueRef v)).asValue _
        rw [internalOf_valueRef]
        exact hq
      | none =>
        refine ih hrest hw' fun db₃ hw₃ => ?_
        have hq := hok db₃ hw₃
        rwa [List.findSome?_cons, if_pos hin, hl] at hq
    · rw [if_neg hin]
      refine ih hrest hw fun db₃ hw₃ => ?_
      have hq := hok db₃ hw₃
      rwa [List.findSome?_cons, if_neg hin] at hq

/-- **`get` answers from memory and shelf together.** -/
theorem wpE_get_reads {A Hist : History Bytes InternalValue} {key : Bytes}
    {Q : Option Bytes → Disk × Db → Prop} {R : DbError → Disk × Db → Prop}
    (h : Reads cfg.dir A Hist db.memtables.layers db.readers db.manifest.current.val T d)
    (hok : ∀ db', Warmed cfg d T db db' →
      Q ((lookup (db.memtables.layers ++ db.manifest.current.val.layers T) key).bind
        InternalValue.asValue) (d, db')) :
    wpE (Disk.sem Faults.none) strict H (fun _ => True) (Db.get cfg key) Q R (d, db) := by
  have hself : Warmed cfg d T db db := ⟨rfl, rfl, rfl, rfl, h.cached⟩
  refine wpE_bind.mpr (wpE_get trivial ?_)
  dsimp only
  rw [lookup_append, ← MemtableSet.get_eq] at hok
  cases hm : db.memtables.get key with
  | some v =>
    have hq := hok db hself
    rw [hm, Option.some_or] at hq
    exact wpE_pure.mpr ⟨trivial, hq⟩
  | none =>
    refine Manifest.wpE_withCurrent manifestPart trivial (fun _ _ => trivial) ?_
    have hpin : Warmed cfg d T db { db with manifest := db.manifest.pin } :=
      ⟨rfl, rfl, rfl, rfl, h.cached⟩
    refine wpE_getTables h.kept h.arranged.below _
      (fun table ht => Version.mem_tablesNewestFirst.mp ht) hpin fun db' hw => ?_
    have hq := hok { db' with manifest := db'.manifest.unpin db.manifest.current }
      ⟨hw.wal, hw.memtables, hw.write, hw.versions, hw.cached⟩
    rw [hm, Option.none_or, ← Version.find_eq h.arranged.describes] at hq
    exact hq

omit [TableHashing] in
/-- These sources are the layers of the memory, cut to the range. -/
theorem mem_memory_layers {range : KeyRange} {s : MemtableSet} {l : Versions} :
    l ∈ s.layers.map (restrict (rangeContains range)) ↔
      ∃ src ∈ (s.active :: s.frozen.map Arc.val).map fun t =>
        t.snapshot.filter fun e => rangeContains range e.1, l = layerOf src := by
  have hcut : ∀ t : Memtable, layerOf (t.snapshot.filter fun e => rangeContains range e.1) =
      restrict (rangeContains range) t.versions := fun t => by
    rw [layerOf_filter_key]
    exact congrArg _ (funext t.layerOf_snapshot)
  have hlayers : ∀ m : Versions, m ∈ s.layers ↔
      ∃ t ∈ s.active :: s.frozen.map Arc.val, t.versions = m := by
    intro m
    simp only [MemtableSet.layers, List.mem_cons, List.mem_reverse, List.mem_map,
      exists_eq_or_imp, exists_exists_and_eq_and]
    exact or_congr_left eq_comm
  constructor
  · intro hl
    obtain ⟨m, hm, rfl⟩ := List.mem_map.mp hl
    obtain ⟨t, ht, rfl⟩ := (hlayers m).mp hm
    exact ⟨_, List.mem_map_of_mem ht, (hcut t).symm⟩
  · rintro ⟨src, hsrc, rfl⟩
    obtain ⟨t, ht, rfl⟩ := List.mem_map.mp hsrc
    rw [hcut]
    exact List.mem_map_of_mem ((hlayers _).mpr ⟨t, ht, rfl⟩)

/-- The sources that the tables give. -/
theorem wpE_scanTables {range : KeyRange} {R : DbError → Disk × Db → Prop}
    (hkept : Kept Slot.live cfg.dir d T db.manifest.current.val.referencedIds)
    (hbelow : ∀ table ∈ db.manifest.current.val.allTables,
      table.id < db.manifest.current.val.nextTableId) :
    ∀ (tables : List TableMeta) {db' : Db} {Q : List (List Entry) → Disk × Db → Prop},
      (∀ table ∈ tables, table ∈ db.manifest.current.val.allTables) → Warmed cfg d T db db' →
      (∀ db'', Warmed cfg d T db db'' → Q (tables.map fun table =>
        (T table.id).filter fun e => rangeContains range e.1) (d, db'')) →
      wpE (Disk.sem Faults.none) strict H (fun _ => True) (scanTables cfg range tables) Q R
        (d, db') := by
  intro tables
  induction tables with
  | nil => exact fun _ hw hok => wpE_pure.mpr ⟨trivial, hok _ hw⟩
  | cons table tables ih =>
    intro db' Q hsub hw hok
    have ht := hsub table List.mem_cons_self
    refine wpE_bind.mpr (wpE_readerFor hw hkept (hbelow table ht) ht
      fun n db'' hfile hlive hw' => ?_)
    refine wpE_bind.mpr (wpE_scope (wpE_mapError (SsTableReader.wpE_iter hfile trivial hlive
      (by rw [Blob.content_mk, List.append_nil]) ?_ fun ha => absurd ha Faults.not_any_none)))
    refine wpE_bind.mpr (wpE_mapError (wpE_ofExcept.mpr ⟨trivial, ?_⟩))
    rw [mapM_ok]
    refine wpE_bind.mpr (ih (fun t ht => hsub t (List.mem_cons_of_mem _ ht)) hw'
      fun db₃ hw₃ => wpE_pure.mpr ⟨trivial, ?_⟩)
    rw [entry_tableEntries]
    exact hok db₃ hw₃

/-- **`scan` answers from memory and shelf together**: in order, every key of the range
that has a value. -/
theorem wpE_scan_reads {A Hist : History Bytes InternalValue} {range : KeyRange}
    {Q : List (Bytes × Bytes) → Disk × Db → Prop} {R : DbError → Disk × Db → Prop}
    (h : Reads cfg.dir A Hist db.memtables.layers db.readers db.manifest.current.val T d)
    (hrange : range.panics = false)
    (hok : ∀ db' out, Warmed cfg d T db db' → Ascending out → (∀ key, layerOf out key =
      (restrict (rangeContains range)
        (lookup (db.memtables.layers ++ db.manifest.current.val.layers T)) key).bind
          InternalValue.asValue) → Q out (d, db')) :
    wpE (Disk.sem Faults.none) strict H (fun _ => True) (Db.scan cfg range) Q R (d, db) := by
  have hself : Warmed cfg d T db { db with manifest := db.manifest.pin } :=
    ⟨rfl, rfl, rfl, rfl, h.cached⟩
  refine wpE_bind.mpr (wpE_get trivial ?_)
  dsimp only
  rw [MemtableSet.scanIters_eq hrange]
  refine wpE_bind.mpr (Manifest.wpE_withCurrent manifestPart trivial (fun _ _ => trivial)
    (wpE_scanTables h.kept h.arranged.below _ (fun _ ht => ht) hself fun db' hw => ?_))
  refine wpE_pure.mpr ⟨trivial, ?_⟩
  obtain ⟨B, _, hst⟩ := h.stacked
  let memory := (db.memtables.active :: db.memtables.frozen.map Arc.val).map fun t =>
    t.snapshot.filter fun e => rangeContains range e.1
  have hsort : Sorted (memory ++ db.manifest.current.val.scanSources T range) := by
    intro s hs
    rcases List.mem_append.mp hs with hs | hs
    · obtain ⟨t, _, rfl⟩ := List.mem_map.mp hs
      exact t.ascending_snapshot.filter _
    · obtain ⟨table, ht, rfl⟩ := List.mem_map.mp hs
      exact (h.arranged.describes table ht).ascending.filter _
  have hls : ∀ l, l ∈ (db.memtables.layers ++ db.manifest.current.val.layers T).map
      (restrict (rangeContains range)) ↔
      ∃ s ∈ memory ++ db.manifest.current.val.scanSources T range, l = layerOf s := by
    intro l
    rw [List.map_append, List.mem_append, mem_memory_layers, Version.mem_scan_layers]
    simp only [List.mem_append, or_and_right, exists_or]
    exact Iff.rfl
  obtain ⟨hasc, hlayer⟩ := Version.live_layers hsort hst.stack_ordered range hls
  exact hok _ _ ⟨hw.wal, hw.memtables, hw.write, hw.versions, hw.cached⟩ hasc hlayer

end Read

/-! ### Answers -/

section Answers

variable {cfg : Config} {H : History Bytes InternalValue} {d : Disk} {db : Db}

/-- **The handle answers like the map** `m`: `get` returns the value of the key, and `scan`
the pairs of the range, in order. -/
structure Answers (cfg : Config) (fs : SimFs) (db : Db) (m : Bytes → Option Bytes) : Prop where
  get : ∀ key, ∃ fs' db', fs.exec (Db.get cfg key) db = some (.ok (m key), fs', db')
  scan : ∀ range : KeyRange, range.panics = false → ∃ out fs' db',
    fs.exec (Db.scan cfg range) db = some (.ok out, fs', db') ∧ Ascending out ∧
      ∀ key, layerOf out key = restrict (rangeContains range) m key

/-- What memory and shelf read as. -/
theorem Reads.read {dir : Dir} {A : History Bytes InternalValue} {ms : List Versions}
    {readers : Nat → Option SsTableReader} {v : Version} {T : Contents} {m : Bytes → Option Bytes}
    (h : Reads dir A H ms readers v T d) (hm : Means H m) (key : Bytes) :
    (lookup (ms ++ v.layers T) key).bind InternalValue.asValue = m key := by
  obtain ⟨B, _, hst⟩ := h.stacked
  exact hst.shows.read hm key

/-- **Where memory and shelf answer for a history, so does the handle.** -/
theorem Reads.answers {A : History Bytes InternalValue} {T : Contents} {fs : SimFs}
    {m : Bytes → Option Bytes} (ht : fs.Tidy)
    (h : Reads cfg.dir A H db.memtables.layers db.readers db.manifest.current.val T fs.disk)
    (hm : Means H m) : Answers cfg fs db m where
  get key := by
    have hget : wpE (Disk.sem Faults.none) False False (fun _ => True) (Db.get cfg key)
        (fun a _ => a = m key) (fun _ _ => False) (fs.disk, db) :=
      wpE_get_reads h fun db' _ => h.read hm key
    obtain ⟨a, fs', db', he, -, rfl⟩ := SimFs.exec_ok ht hget
    exact ⟨fs', db', he⟩
  scan range hrange := by
    obtain ⟨out, fs', db', he, -, hasc, hout⟩ := SimFs.exec_ok ht (wpE_scan_reads
      (Q := fun out _ => Ascending out ∧ ∀ key, layerOf out key =
        restrict (rangeContains range) m key) h hrange fun db' out _ hasc hout => ⟨hasc, fun key => by
          rw [hout, restrict, restrict]
          by_cases hin : rangeContains range key = true
          · rw [if_pos hin, if_pos hin, h.read hm key]
          · rw [if_neg hin, if_neg hin]
            rfl⟩)
    exact ⟨out, fs', db', he, hasc, hout⟩

theorem Sound.answers {fs : SimFs} {m : Bytes → Option Bytes} (ht : fs.Tidy)
    (h : Sound cfg H (fs.disk, db)) (hm : Means H m) : Answers cfg fs db m := by
  obtain ⟨A, T, hr⟩ := h.steady.reads
  exact hr.answers ht hm

/-- A read leaves the handle standing. -/
theorem Stands.warmed {A : History Bytes InternalValue} {since : List Entry} {L : Wal.Layout}
    {T : Contents} {db' : Db} (h : Stands cfg A since L T (d, db)) (hw : Warmed cfg d T db db') :
    Stands cfg A since L T (d, db') := by
  obtain ⟨hready, hlog, hpend, hshelf, hlater, hclaimed, hword, hfilled⟩ := h
  have hcur : db'.manifest.current = db.manifest.current := (List.cons.inj hw.versions).1
  have hmem := Shelf.mem hshelf
  have hshelf' : Stored cfg A (A ⊔ History.ofList since) L T (d, { db with readers := db'.readers }) :=
    ⟨Shelf.log hshelf, Shelf.shelved hshelf, ⟨hmem.words, hmem.arranged, hmem.laidOut, hmem.kept,
      hw.cached, hmem.stacked⟩, Shelf.older hshelf⟩
  have hdb : db' = { db with readers := db'.readers, manifest := db'.manifest } := by
    obtain ⟨wal, memtables, manifest, readers, write⟩ := db'
    obtain ⟨rfl, rfl, rfl, -, -⟩ := hw
    rfl
  rw [hdb]
  exact ⟨hready, hlog, hpend, hshelf'.hold hw.versions, hlater, hclaimed, hword, hfilled⟩

end Answers

end AccretionDb.Db
