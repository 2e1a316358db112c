import AccretionDb.Db.Read

/-! # A scan, wherever the entries are

The same entries can lie in the active table, in frozen ones and in tables on disk in
many ways.  A scan merges all of them and keeps the newest version of each key, so it
yields the live entries of the range and nothing else, unless the range is one that
`BTreeMap::range` does not take (`scan_uniform_iff`).
-/

namespace AccretionDb

open CrashLogic

/-- The live entries of a range, in order. -/
structure LiveIn (H : History Bytes InternalValue) (range : KeyRange)
    (out : List (Bytes × Bytes)) : Prop where
  ascending : Ascending out
  mem : ∀ key value, (key, value) ∈ out ↔
    rangeContains range key = true ∧ ∃ v, CrashLogic.Newest H key v ∧ v.asValue = some value

/-- There is one such list. -/
theorem LiveIn.unique {H : History Bytes InternalValue} {range : KeyRange}
    {out out' : List (Bytes × Bytes)} (h : LiveIn H range out) (h' : LiveIn H range out') :
    out = out' := by
  refine h.ascending.ext h'.ascending fun key => Option.ext fun value => ?_
  rw [h.ascending.layerOf_eq_some, h'.ascending.layerOf_eq_some, h.mem, h'.mem]

/-! ### The merge of sources that hold a history -/

theorem newest_restrict_iff {H : History Bytes InternalValue} {p : Bytes → Prop} {key : Bytes}
    {v : InternalValue} :
    CrashLogic.Newest (fun key v => H key v ∧ p key) key v ↔ CrashLogic.Newest H key v ∧ p key := by
  constructor
  · exact fun h => ⟨⟨h.mem.1, fun w hw => h.max w ⟨hw, h.mem.2⟩⟩, h.mem.2⟩
  · exact fun h => ⟨⟨h.1.mem, h.2⟩, fun w hw => h.1.max w hw.1⟩

/-- **The winner of a key is its newest version**, in whatever sources the versions are. -/
theorem Merged.newest_iff {ss : List (List Entry)} {out : List Entry} (hm : Merged ss out)
    {H : History Bytes InternalValue} (hco : Coherent H)
    (hH : ∀ key v, H key v ↔ ∃ s ∈ ss, (key, v) ∈ s) (key : Bytes) (v : InternalValue) :
    (key, v) ∈ out ↔ CrashLogic.Newest H key v := by
  have hwins : ∀ {v}, (key, v) ∈ out → CrashLogic.Newest H key v := by
    intro v hv
    obtain ⟨i, s, hs, hmem, hbest⟩ := hm.wins _ hv
    have hHv := (hH key v).mpr ⟨s, List.mem_of_getElem? hs, hmem⟩
    refine ⟨hHv, fun w hw => ?_⟩
    obtain ⟨s', hs', hmem'⟩ := (hH key w).mp hw
    obtain ⟨j, hj⟩ := List.getElem?_of_mem hs'
    rcases hbest j s' w hj hmem' with hlt | ⟨-, hlt | ⟨heq, -⟩⟩
    · exact absurd hlt (lt_irrefl key)
    · exact .inl hlt
    · exact .inr (hco key w v hw hHv heq)
  constructor
  · exact hwins
  · intro hv
    obtain ⟨s, hs, hmem⟩ := (hH key v).mp hv.mem
    obtain ⟨w, hw⟩ := hm.covers s hs _ hmem
    rwa [hv.unique (hwins hw)]

theorem mem_livePairs {es : List Entry} {key value : Bytes} :
    (key, value) ∈ livePairs es ↔ ∃ v, (key, v) ∈ es ∧ v.asValue = some value := by
  rw [livePairs, List.mem_filterMap]
  constructor
  · rintro ⟨⟨k, v⟩, he, hv⟩
    obtain ⟨value', hv', heq⟩ := Option.map_eq_some_iff.mp hv
    obtain ⟨rfl, rfl⟩ := Prod.mk.inj heq
    exact ⟨v, he, hv'⟩
  · rintro ⟨v, he, hv⟩
    exact ⟨(key, v), he, by rw [hv]; rfl⟩

namespace Db

section Spread

variable [TableHashing]

/-- The entries of `H`, spread over the memory and the tables. -/
structure Spread (cfg : Config) (H : History Bytes InternalValue) (T : Contents) (fs : SimFs)
    (db : Db) : Prop where
  tidy : fs.Tidy
  coherent : Coherent H
  held : ∀ key v, H key v ↔
    (∃ t ∈ db.memtables.active :: db.memtables.frozen.map Arc.val, t.get key = some v) ∨
      ∃ table ∈ db.manifest.current.val.allTables, (key, v) ∈ T table.id
  kept : Kept Slot.live cfg.dir fs.disk T db.manifest.current.val.referencedIds
  below : ∀ table ∈ db.manifest.current.val.allTables,
    table.id < db.manifest.current.val.nextTableId
  cached : Cached cfg.dir fs.disk db.manifest.current.val T db.readers

variable {cfg : Config} {H : History Bytes InternalValue} {T : Contents} {fs : SimFs} {db : Db}
variable {range : KeyRange}

namespace Spread

/-- The sources of a scan. -/
def sources (db : Db) (T : Contents) (range : KeyRange) : List (List Entry) :=
  ((db.memtables.active :: db.memtables.frozen.map Arc.val).map fun t =>
      t.snapshot.filter fun e => rangeContains range e.1) ++
    db.manifest.current.val.scanSources T range

theorem sorted_sources (h : Spread cfg H T fs db) (range : KeyRange) :
    Sorted (sources db T range) := by
  intro s hs
  rcases List.mem_append.mp hs with hs | hs
  · obtain ⟨t, _, rfl⟩ := List.mem_map.mp hs
    exact t.ascending_snapshot.filter _
  · obtain ⟨table, ht, rfl⟩ := List.mem_map.mp hs
    obtain ⟨c, -, hc⟩ := h.kept table.id (List.mem_map_of_mem ht)
    exact hc.ascending.filter _

/-- Together the sources hold the entries of the range. -/
theorem mem_sources (h : Spread cfg H T fs db) (range : KeyRange) (key : Bytes)
    (v : InternalValue) : (H key v ∧ rangeContains range key = true) ↔
      ∃ s ∈ sources db T range, (key, v) ∈ s := by
  have hmem : ∀ t : Memtable, (key, v) ∈ t.snapshot ↔ t.get key = some v := fun t => by
    rw [← t.ascending_snapshot.layerOf_eq_some, Memtable.layerOf_snapshot, Memtable.versions]
  rw [h.held, sources]
  constructor
  · rintro ⟨⟨t, ht, hv⟩ | ⟨table, ht, hv⟩, hin⟩
    · exact ⟨_, List.mem_append_left _ (List.mem_map_of_mem ht),
        List.mem_filter.mpr ⟨(hmem t).mpr hv, hin⟩⟩
    · exact ⟨_, List.mem_append_right _ (List.mem_map_of_mem ht), List.mem_filter.mpr ⟨hv, hin⟩⟩
  · rintro ⟨s, hs, hv⟩
    rcases List.mem_append.mp hs with hs | hs
    · obtain ⟨t, ht, rfl⟩ := List.mem_map.mp hs
      obtain ⟨hv, hin⟩ := List.mem_filter.mp hv
      exact ⟨.inl ⟨t, ht, (hmem t).mp hv⟩, hin⟩
    · obtain ⟨table, ht, rfl⟩ := List.mem_map.mp hs
      obtain ⟨hv, hin⟩ := List.mem_filter.mp hv
      exact ⟨.inr ⟨table, ht, hv⟩, hin⟩

theorem liveIn (h : Spread cfg H T fs db) (range : KeyRange) :
    LiveIn H range (MergeIterator.new (sources db T range)).live := by
  have hm := Merged.toList (h.sorted_sources range)
  have hco : Coherent fun key v => H key v ∧ rangeContains range key = true :=
    fun key v w hv hw => h.coherent key v w hv.1 hw.1
  refine ⟨(Version.layerOf_live hm.ascending).1, fun key value => ?_⟩
  show (key, value) ∈ livePairs _ ↔ _
  simp only [mem_livePairs, hm.newest_iff hco (h.mem_sources range), newest_restrict_iff]
  constructor
  · rintro ⟨v, ⟨hv, hin⟩, hval⟩
    exact ⟨hin, v, hv, hval⟩
  · rintro ⟨hin, v, hv, hval⟩
    exact ⟨v, ⟨hv, hin⟩, hval⟩

/-- A range that `BTreeMap::range` takes. -/
theorem scan (h : Spread cfg H T fs db) (hrange : range.panics = false) : ∃ out fs' db',
    LiveIn H range out ∧ SimFs.exec (Db.scan cfg range) fs db = some (.ok out, fs', db') := by
  have hscan : wpE (Disk.sem Faults.none) False False (fun _ => True) (Db.scan cfg range)
      (fun out _ => LiveIn H range out) (fun _ _ => False) (fs.disk, db) := by
    refine wpE_bind.mpr (wpE_get trivial ?_)
    dsimp only
    rw [MemtableSet.scanIters_eq hrange]
    have hself : Warmed cfg fs.disk T db { db with manifest := db.manifest.pin } :=
      ⟨rfl, rfl, rfl, rfl, h.cached⟩
    refine wpE_bind.mpr (Manifest.wpE_withCurrent manifestPart trivial (fun _ _ => trivial)
      (wpE_scanTables h.kept h.below _ (fun _ ht => ht) hself fun db' hw => ?_))
    exact wpE_pure.mpr ⟨trivial, h.liveIn range⟩
  obtain ⟨out, fs', db', he, -, hout⟩ := SimFs.exec_ok h.tidy hscan
  exact ⟨out, fs', db', hout, he⟩

end Spread

/-- A range on which `BTreeMap::range` panics. -/
theorem scan_panics (cfg : Config) (fs : SimFs) (db : Db) (h : range.panics = true) :
    SimFs.exec (Db.scan cfg range) fs db = none := by
  have hactive : db.memtables.active.rangeSnapshot range = none := if_pos h
  have hiters : db.memtables.scanIters range = none := by
    rw [MemtableSet.scanIters, hactive]
    rfl
  show SimFs.exec (Act.get >>= _) fs db = none
  rw [SimFs.exec_bind_of_ok _ (show SimFs.exec Act.get fs db = some (.ok db, fs, db) from rfl)]
  rw [hiters]
  rfl

/-- **Where an entry is stored does not change what a scan yields**: the live entries of
the range, unless `BTreeMap::range` does not take the range. -/
theorem scan_uniform_iff {T₁ T₂ : Contents} {fs₁ fs₂ : SimFs} {db₁ db₂ : Db}
    (h₁ : Spread cfg H T₁ fs₁ db₁) (h₂ : Spread cfg H T₂ fs₂ db₂) :
    (∃ out, LiveIn H range out ∧
      (∃ fs' db', SimFs.exec (Db.scan cfg range) fs₁ db₁ = some (.ok out, fs', db')) ∧
      ∃ fs' db', SimFs.exec (Db.scan cfg range) fs₂ db₂ = some (.ok out, fs', db')) ↔
    range.panics = false := by
  constructor
  · rintro ⟨out, -, ⟨fs', db', he⟩, -⟩
    cases hp : range.panics with
    | false => rfl
    | true =>
      rw [scan_panics cfg fs₁ db₁ hp] at he
      cases he
  · intro hrange
    obtain ⟨out, fs', db', hout, he⟩ := h₁.scan hrange
    obtain ⟨out', fs'', db'', hout', he'⟩ := h₂.scan hrange
    rw [← hout.unique hout'] at he'
    exact ⟨out, hout, ⟨fs', db', he⟩, fs'', db'', he'⟩

end Spread

/-! ### Two ways to spread two versions of one key -/

section Examples

attribute [local instance] TableHashing.emptyKey

def demoVersions : History Bytes InternalValue :=
  .ofList [([], ⟨1, .value [7]⟩), ([], ⟨2, .value [8]⟩)]

/-- A handle with these memtables and this version, and nothing in its cache. -/
def demoHandle (s : MemtableSet) (v : Version) : Db :=
  ⟨⟨⟨1, Wal.segmentPath [100] 1, 0⟩, .default⟩, s, .start v, fun _ => none, ⟨3, 0, false⟩⟩

/-- The old version is frozen, and the new one is in the active table. -/
def demoFrozen : MemtableSet :=
  ((MemtableSet.new 1024).insertIfNewer [] ⟨1, .value [7]⟩).freeze.insertIfNewer [] ⟨2, .value [8]⟩

/-- The old version is in the active table, and the new one is flushed. -/
def demoActive : MemtableSet := (MemtableSet.new 1024).insertIfNewer [] ⟨1, .value [7]⟩

theorem coherent_demoVersions : Coherent demoVersions := by
  intro key v w hv hw hseq
  simp only [demoVersions, History.ofList, List.mem_cons, Prod.mk.injEq, List.not_mem_nil,
    or_false] at hv hw
  rcases hv with ⟨-, rfl⟩ | ⟨-, rfl⟩ <;> rcases hw with ⟨-, rfl⟩ | ⟨-, rfl⟩
  · rfl
  · exact absurd hseq (by decide)
  · exact absurd hseq (by decide)
  · rfl

theorem get_insertIfNewer_new (v : InternalValue) (key : Bytes) :
    (Memtable.new.insertIfNewer [] v).get key = if key = [] then some v else none := by
  have h := @Memtable.versions_insertIfNewer [] v .new fun prev hprev => by
    rw [Memtable.versions_new] at hprev
    cases hprev
  exact (congrFun h key).trans (Function.update_apply ..)

theorem spread_demoFrozen : Spread demoConfig demoVersions (fun _ => []) (SimFs.new fun _ => 0)
    (demoHandle demoFrozen .empty) where
  tidy := SimFs.new_tidy _
  coherent := coherent_demoVersions
  held key v := by
    show (key, v) ∈ _ ↔ (∃ t ∈ [Memtable.new.insertIfNewer [] ⟨2, .value [8]⟩,
      Memtable.new.insertIfNewer [] ⟨1, .value [7]⟩], t.get key = some v) ∨ ∃ table ∈ [], _
    simp only [List.mem_cons, List.not_mem_nil, Prod.mk.injEq, or_false, exists_eq_or_imp,
      exists_eq_left, false_and, exists_false, get_insertIfNewer_new]
    by_cases hk : key = []
    · simp only [hk, true_and, if_true, Option.some.injEq]
      rw [or_comm, @eq_comm _ v, @eq_comm _ v]
    · simp only [hk, false_and, if_false, reduceCtorEq, or_self]
  kept id hid := absurd hid List.not_mem_nil
  below table ht := absurd ht List.not_mem_nil
  cached := .empty ..

/-- The table with the new version can be written. -/
theorem exists_spread_demoActive : ∃ fs, Spread demoConfig demoVersions
    (fun _ => [([], ⟨2, .value [8]⟩)]) fs
    (demoHandle demoActive ⟨[[⟨1, 1, [], []⟩]], 3, 2⟩) := by
  have hfit : TableFits (writeSize 1) (tableEntries [([], ⟨2, .value [8]⟩)]) := by
    refine ⟨?_, ?_, ?_, ?_⟩ <;> decide +kernel
  obtain ⟨_, fs, _, -, htidy, hfile, hlive⟩ := SimFs.exec_ok (C := fun _ => True) (m := ())
    (p := writeTable (tablePath [100] 1) 1 1 [([], ⟨2, .value [8]⟩)])
    (Q := fun _ σ => TableFile (writeSize 1) (tableEntries [([], ⟨2, .value [8]⟩)]) ∧
      (σ.1 (tablePath [100] 1)).live =
        some ⟨tableBytes (writeSize 1) (tableEntries [([], ⟨2, .value [8]⟩)]), []⟩)
    (SimFs.new_tidy fun _ => 0) (by
      refine wpE_writeTable rfl (List.pairwise_singleton ..) (by decide) rfl (fun _ => hfit) trivial
        (fun _ => trivial) (fun hf => ⟨hf, ?_⟩) (fun ha => ?_) fun ha => ?_
      · dsimp only
        rw [Disk.live_put]
      · exact absurd ha Faults.not_any_none
      · exact absurd ha Faults.not_any_none)
  refine ⟨fs, htidy, coherent_demoVersions, fun key v => ?_, fun id hid => ?_, ?_, .empty ..⟩
  · show (key, v) ∈ _ ↔ (∃ t ∈ [Memtable.new.insertIfNewer [] ⟨1, .value [7]⟩],
      t.get key = some v) ∨ ∃ table ∈ [(⟨1, 1, [], []⟩ : TableMeta)], (key, v) ∈ _
    simp only [List.mem_cons, List.not_mem_nil, Prod.mk.injEq, or_false, exists_eq_left,
      get_insertIfNewer_new]
    by_cases hk : key = []
    · simp only [hk, true_and, if_true, Option.some.injEq]
      rw [@eq_comm _ v]
    · simp only [hk, false_and, if_false, reduceCtorEq, or_self]
  · rw [List.mem_singleton.mp hid]
    exact ⟨_, hlive, writeSize 1, hfile, rfl⟩
  · decide

/-- Both give the new version. -/
theorem scan_uniform_demo : ∃ fs out, LiveIn demoVersions .full out ∧
    (∃ fs' db', SimFs.exec (Db.scan demoConfig .full) (SimFs.new fun _ => 0)
      (demoHandle demoFrozen .empty) = some (.ok out, fs', db')) ∧
    ∃ fs' db', SimFs.exec (Db.scan demoConfig .full) fs
      (demoHandle demoActive ⟨[[⟨1, 1, [], []⟩]], 3, 2⟩) = some (.ok out, fs', db') := by
  obtain ⟨fs, hs⟩ := exists_spread_demoActive
  exact ⟨fs, (scan_uniform_iff spread_demoFrozen hs).mpr rfl⟩

/-- From `[1]` to `[0]`, both included: no key is in that range, and the scan panics. -/
theorem scan_inverted_panics : LiveIn demoVersions ⟨.included [1], .included [0]⟩ [] ∧
    SimFs.exec (Db.scan demoConfig ⟨.included [1], .included [0]⟩) (SimFs.new fun _ => 0)
      (demoHandle demoFrozen .empty) = none := by
  refine ⟨⟨.nil, fun key value => iff_of_false List.not_mem_nil fun h => ?_⟩,
    scan_panics _ _ _ (by decide)⟩
  obtain ⟨h1, h2⟩ := Bool.and_eq_true_iff.mp h.1
  exact absurd (le_trans (of_decide_eq_true h1) (of_decide_eq_true h2)) (by decide)

end Examples

end Db

end AccretionDb
