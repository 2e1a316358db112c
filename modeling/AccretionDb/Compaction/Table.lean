import AccretionDb.Manifest.Codec
import AccretionDb.SsTable.Read
import AccretionDb.Storage.Exec

/-! # Writing a whole table, and reading it back

`writeTable` feeds a list of versions to a builder, and `readAllEntries` collects
what the iterator of a reader yields.
-/

namespace AccretionDb

open CrashLogic

inductive CompactionError
  | storage (e : StorageError)
  | ssTable (e : SsTableError)
  | manifest (e : ManifestError)
  deriving DecidableEq, Repr

variable {M : Type}

section Programs

variable [TableHashing]

/-- The loop of `write_table`. -/
def SsTableBuilder.addAll : List Entry → Io SsTableBuilder SsTableError Unit
  | [] => pure ()
  | e :: es => do
    add e.1 e.2.seq (valueRef e.2)
    addAll es

/-- The metadata of a table with at least one entry. -/
def tableMeta (id : Nat) (first : Entry) (rest : List Entry) : TableMeta :=
  ⟨id, rest.length + 1, first.1, ((first :: rest).getLast (List.cons_ne_nil _ _)).1⟩

/-- The filter of a table of the engine. -/
def writeSize (expectedKeys : Nat) : FilterSize := ⟨max expectedKeys 1, DEFAULT_BITS_PER_KEY⟩

/-- A list without entries leaves an empty file that is no table. -/
def writeTable (path : Path) (id expectedKeys : Nat) (entries : List Entry) :
    Io M CompactionError (Option TableMeta) := do
  let builder ← (SsTableBuilder.new path (max expectedKeys 1) DEFAULT_BITS_PER_KEY).mapError .ssTable
  Act.scope builder do
    (SsTableBuilder.addAll entries).mapError .ssTable
    match entries with
    | [] => pure none
    | first :: rest => do
      let _ ← SsTableBuilder.finish.mapError .ssTable
      pure (some (tableMeta id first rest))

/-- The builder alone: all entries, and then `finish`. -/
def buildTable (path : Path) (n : FilterSize) (entries : List Entry) :
    Io M SsTableError SsTableSummary := do
  let builder ← SsTableBuilder.new path n.expectedKeys n.bitsPerKey
  Act.scope builder do
    SsTableBuilder.addAll entries
    SsTableBuilder.finish

def readAllEntries (r : SsTableReader) : Io M CompactionError (List Entry) := do
  let items ← r.iter.mapError .ssTable
  let es ← (Act.ofExcept (items.mapM id)).mapError .ssTable
  pure (es.map TableEntry.entry)

/-- Open the table, walk it, and look up a key. -/
def readBack (path : Path) (key : Bytes) :
    Io M SsTableError (List (Except SsTableError TableEntry) × Option TableEntry) := do
  let r ← SsTableReader.open path
  let items ← r.iter
  let e ← r.get key
  pure (items, e)

end Programs

/-! ### The file of a list of versions -/

/-- The entries as the table holds them. -/
def tableEntries (es : List Entry) : List TableEntry := es.map tableEntry

theorem sortedKeys_tableEntries {es : List Entry} : SortedKeys (tableEntries es) ↔ Ascending es :=
  List.pairwise_map

@[simp] theorem entry_tableEntries (es : List Entry) :
    (tableEntries es).map TableEntry.entry = es := by
  rw [tableEntries, List.map_map]
  exact (List.map_congr_left fun e _ => entry_tableEntry e).trans (List.map_id es)

theorem length_tableEntries (es : List Entry) : (tableEntries es).length = es.length :=
  List.length_map ..

/-- Items without an error are the entries. -/
theorem mapM_ok (items : List TableEntry) :
    (items.map Except.ok : List (Except SsTableError TableEntry)).mapM id = .ok items := by
  induction items with
  | nil => rfl
  | cons x items ih =>
    rw [List.map_cons, List.mapM_cons, ih]
    rfl

/-- The first error among the items is the outcome. -/
theorem mapM_error {items : List (Except SsTableError TableEntry)} {err : SsTableError}
    (h : .error err ∈ items) : ∃ err', items.mapM id = .error err' := by
  induction items with
  | nil => cases h
  | cons x items ih =>
    rw [List.mapM_cons]
    cases x with
    | error err' => exact ⟨err', rfl⟩
    | ok a =>
      rcases List.mem_cons.mp h with h | h
      · cases h
      · obtain ⟨err', he⟩ := ih h
        exact ⟨err', by rw [he]; rfl⟩

theorem searchBlock_tableEntries (es : List Entry) (key : Bytes) :
    SsTableReader.searchBlock (tableEntries es) key =
      (layerOf es key).map fun v => tableEntry (key, v) := by
  induction es with
  | nil => rfl
  | cons e es ih =>
    rw [layerOf_cons, SsTableReader.searchBlock, tableEntries, List.map_cons, List.find?_cons]
    by_cases hk : e.1 = key
    · subst hk
      rw [if_pos rfl, decide_eq_true (show (tableEntry e).key = e.1 from rfl)]
      rfl
    · rw [if_neg hk, decide_eq_false (show ¬ (tableEntry e).key = key from hk)]
      exact ih

section Files

variable [TableHashing]

/-- **What a table file holds**: the bytes are those of these entries, for a filter of
some size. -/
def Table (c : Bytes) (es : List Entry) : Prop :=
  ∃ n, TableFile n (tableEntries es) ∧ c = tableBytes n (tableEntries es)

theorem Table.ascending {c : Bytes} {es : List Entry} (h : Table c es) : Ascending es := by
  obtain ⟨n, ht, _⟩ := h
  exact sortedKeys_tableEntries.mp ht.sorted

section Specs

variable {e : Faults} {strict H : Prop} {d : Disk} {m : M} {path : Path} {n : FilterSize}
variable {C : Disk × M → Prop} {es : List Entry}

theorem SsTableBuilder.wpE_addAll {C : Disk × SsTableBuilder → Prop}
    {R : SsTableError → Disk × SsTableBuilder → Prop} (hsort : Ascending es)
    (hfit : ¬ strict → TableFits n (tableEntries es)) (hC : ∀ f b, C (d.put path f, b))
    (herr : e.Any → ∀ err f b, R err (d.put path f, b)) :
    ∀ (rest done : List Entry), es = done ++ rest → ∀ {b : SsTableBuilder}
      {Q : Unit → Disk × SsTableBuilder → Prop},
      Building path n (blocksOf (tableEntries done)) (tableEntries done) b →
      (∀ b', Building path n (blocksOf (tableEntries es)) (tableEntries es) b' →
        Q () (d.put path ⟨[], dataBytes (blocksOf (tableEntries es)).done⟩, b')) →
      wpE (Disk.sem e) strict H C (addAll rest) Q R
        (d.put path ⟨[], dataBytes (blocksOf (tableEntries done)).done⟩, b) := by
  intro rest
  induction rest with
  | nil =>
    rintro done hes b Q hb hok
    rw [List.append_nil] at hes
    subst hes
    exact wpE_pure.mpr ⟨hC _ _, hok b hb⟩
  | cons x rest ih =>
    intro done hes b Q hb hok
    have hes' : es = done ++ [x] ++ rest := by rw [hes, List.append_assoc, List.singleton_append]
    have hconcat : tableEntries (done ++ [x]) = tableEntries done ++ [tableEntry x] := List.map_append
    refine wpE_bind.mpr (wpE_add (x := tableEntry x) hb ?_ (fun hs => ⟨fun blk hblk => ?_, ?_⟩) hC
      (fun b' hb' => ?_) herr)
    · intro y hy
      have hmem : y ∈ tableEntries done := List.mem_of_getLast? hy
      obtain ⟨z, hz, rfl⟩ := List.mem_map.mp hmem
      rw [hes] at hsort
      exact (List.pairwise_append.mp hsort).2.2 z hz x List.mem_cons_self
    · -- the blocks so far are blocks of the whole table
      refine (hfit hs).blocks blk ?_
      have hall : tableEntries es = tableEntries (done ++ [x]) ++ tableEntries rest := by
        rw [hes', tableEntries, List.map_append]
        rfl
      rw [hall]
      refine mem_tableBlocks_append _ _ ?_
      rwa [hconcat, blocksOf_concat]
    · refine (hfit hs).entries _ ?_
      rw [hes]
      exact List.mem_map_of_mem (List.mem_append_right _ List.mem_cons_self)
    · rw [← hconcat] at hb' ⊢
      exact ih (done ++ [x]) hes' hb' hok

theorem wpE_new {Q : SsTableBuilder → Disk × M → Prop} {R : SsTableError → Disk × M → Prop}
    (hfresh : (d path).live = none) (hfit : ¬ strict → n.Fits)
    (hC : C (d, m)) (hC' : C (d.put path .empty, m))
    (hok : ∀ b, Building path n (blocksOf []) [] b → Q b (d.put path .empty, m))
    (herr : e.Any → ∀ err, R err (d, m)) :
    wpE (Disk.sem e) strict H C (SsTableBuilder.new path n.expectedKeys n.bitsPerKey) Q R (d, m) := by
  refine wpE_bind.mpr (wpE_mapError (wpE_create hC hfresh ⟨hC', ?_⟩ fun hf msg =>
    herr (Faults.any_of_fail hf) _))
  refine wpE_bind.mpr (wpE_fits hC' fun hmark => wpE_pure.mpr ⟨hC', hok _ ?_⟩)
  have hbits : n.Fits := by
    by_cases hs : strict
    · exact hmark hs
    · exact hfit hs
  exact ⟨rfl, rfl, rfl, rfl, rfl, rfl, rfl, rfl, rfl, fun x hx => absurd hx List.not_mem_nil,
    fun x hx => absurd hx List.not_mem_nil, hbits⟩

/-- **The file of a new table.**  The path had no file. -/
theorem wpE_writeTable {id expectedKeys : Nat} {first : Entry} {rest : List Entry}
    {Q : Option TableMeta → Disk × M → Prop} {R : CompactionError → Disk × M → Prop}
    (hes : es = first :: rest) (hsort : Ascending es) (hseq : ∀ x ∈ es, x.2.seq < 2 ^ 64)
    (hfresh : (d path).live = none)
    (hfit : ¬ strict → TableFits (writeSize expectedKeys) (tableEntries es))
    (hC : C (d, m)) (hC' : ∀ f, C (d.put path f, m))
    (hok : TableFile (writeSize expectedKeys) (tableEntries es) →
      Q (some (tableMeta id first rest))
        (d.put path ⟨tableBytes (writeSize expectedKeys) (tableEntries es), []⟩, m))
    (herr : e.Any → ∀ err, R err (d, m)) (herr' : e.Any → ∀ err f, R err (d.put path f, m)) :
    wpE (Disk.sem e) strict H C (writeTable path id expectedKeys es) Q R (d, m) := by
  refine wpE_bind.mpr (wpE_mapError (wpE_new (n := writeSize expectedKeys) hfresh (fun hs => (hfit hs).bits) hC (hC' _)
    (fun b hb => ?_) fun ha err => herr ha _))
  refine wpE_scope (wpE_bind.mpr (wpE_mapError ?_))
  refine SsTableBuilder.wpE_addAll hsort hfit (fun f _ => hC' f) (fun ha err f _ => herr' ha _ f)
    es [] rfl hb fun b' hb' => ?_
  rw [hes]
  dsimp only
  refine wpE_bind.mpr (wpE_mapError ?_)
  rw [← hes]
  refine SsTableBuilder.wpE_finish hb' hfit (fun f _ => hC' f) (fun hf _ => ?_)
    fun ha err f _ => herr' ha _ f
  refine wpE_pure.mpr ⟨hC' _, hok ⟨hf, sortedKeys_tableEntries.mpr hsort, fun x hx => ?_⟩⟩
  obtain ⟨y, hy, rfl⟩ := List.mem_map.mp hx
  exact hseq y hy

/-- Without entries the file stays empty. -/
theorem wpE_writeTable_nil {id expectedKeys : Nat} {Q : Option TableMeta → Disk × M → Prop}
    {R : CompactionError → Disk × M → Prop} (hfresh : (d path).live = none)
    (hfit : ¬ strict → (writeSize expectedKeys).Fits)
    (hC : C (d, m)) (hC' : C (d.put path .empty, m)) (hok : Q none (d.put path .empty, m))
    (herr : e.Any → ∀ err, R err (d, m)) :
    wpE (Disk.sem e) strict H C (writeTable path id expectedKeys []) Q R (d, m) := by
  refine wpE_bind.mpr (wpE_mapError (wpE_new (n := writeSize expectedKeys) hfresh hfit hC hC' (fun b hb => ?_)
    fun ha err => herr ha _))
  refine wpE_scope (wpE_bind.mpr (wpE_mapError (wpE_pure.mpr ⟨hC', ?_⟩)))
  exact wpE_pure.mpr ⟨hC', hok⟩

/-- A path that is taken is an error, and nothing is written. -/
theorem wpE_writeTable_exists {id expectedKeys : Nat} {Q : Option TableMeta → Disk × M → Prop}
    {R : CompactionError → Disk × M → Prop} (hlive : (d path).live.isSome) (hC : C (d, m))
    (herr : ∀ err, R err (d, m)) :
    wpE (Disk.sem e) strict H C (writeTable path id expectedKeys es) Q R (d, m) := by
  refine wpE_bind.mpr (wpE_mapError (wpE_bind.mpr (wpE_mapError ?_)))
  exact wpE_create_exists hC hlive (herr _) fun _ _ => herr _

theorem wpE_buildTable {Q : SsTableSummary → Disk × M → Prop}
    {R : SsTableError → Disk × M → Prop} (hsort : Ascending es)
    (hseq : ∀ x ∈ es, x.2.seq < 2 ^ 64) (hfresh : (d path).live = none)
    (hfit : ¬ strict → TableFits n (tableEntries es))
    (hC : C (d, m)) (hC' : ∀ f, C (d.put path f, m))
    (hok : TableFile n (tableEntries es) →
      Q ⟨es.length, (tableEntries es).head?.map TableEntry.key,
          (tableEntries es).getLast?.map TableEntry.key,
          (tableBytes n (tableEntries es)).length⟩
        (d.put path ⟨tableBytes n (tableEntries es), []⟩, m))
    (herr : e.Any → ∀ err, R err (d, m)) (herr' : e.Any → ∀ err f, R err (d.put path f, m)) :
    wpE (Disk.sem e) strict H C (buildTable path n es) Q R (d, m) := by
  refine wpE_bind.mpr (wpE_new hfresh (fun hs => (hfit hs).bits) hC (hC' _) (fun b hb => ?_)
    fun ha err => herr ha _)
  refine wpE_scope (wpE_bind.mpr ?_)
  refine SsTableBuilder.wpE_addAll hsort hfit (fun f _ => hC' f) (fun ha err f _ => herr' ha _ f)
    es [] rfl hb fun b' hb' => ?_
  refine SsTableBuilder.wpE_finish hb' hfit (fun f _ => hC' f) (fun hf b'' => ?_)
    fun ha err f _ => herr' ha _ f
  rw [length_tableEntries]
  refine hok ⟨hf, sortedKeys_tableEntries.mpr hsort, fun x hx => ?_⟩
  obtain ⟨y, hy, rfl⟩ := List.mem_map.mp hx
  exact hseq y hy

theorem wpE_readAllEntries {f : Blob} {Q : List Entry → Disk × M → Prop}
    {R : CompactionError → Disk × M → Prop} (ht : TableFile n (tableEntries es)) (hC : C (d, m))
    (hlive : (d path).live = some f) (hf : f.content = tableBytes n (tableEntries es))
    (hok : Q es (d, m)) (herr : e.Any → ∀ err, R err (d, m)) :
    wpE (Disk.sem e) strict H C (readAllEntries (readerOf path n (tableEntries es))) Q R (d, m) := by
  refine wpE_bind.mpr (wpE_mapError (SsTableReader.wpE_iter ht hC hlive hf ?_
    fun ha items err hmem => ?_))
  · rw [mapM_ok]
    refine wpE_bind.mpr (wpE_mapError (wpE_ofExcept.mpr ⟨hC, ?_⟩))
    refine wpE_pure.mpr ⟨hC, ?_⟩
    rw [entry_tableEntries]
    exact hok
  · refine wpE_bind.mpr (wpE_mapError (wpE_ofExcept.mpr ⟨hC, ?_⟩))
    obtain ⟨err', herr'⟩ := mapM_error hmem
    rw [herr']
    exact herr ha _

end Specs

/-! ### Round trip -/

omit [TableHashing] in
/-- No key of the list lies outside the range of its table. -/
theorem keyInRange_of_mem {id : Nat} {first : Entry} {rest : List Entry}
    (hsort : Ascending (first :: rest)) {e : Entry} (he : e ∈ first :: rest) :
    (tableMeta id first rest).keyInRange e.1 = true := by
  refine decide_eq_true ⟨hsort.head_le e he, ?_⟩
  have hlast := List.dropLast_append_getLast (List.cons_ne_nil first rest)
  rw [← hlast] at hsort he
  exact hsort.le_last e he

theorem wpE_readBack {d : Disk} {m : M} {path : Path} {n : FilterSize} {es : List Entry} {f : Blob}
    {key : Bytes} {strict H : Prop} {C : Disk × M → Prop}
    {Q : List (Except SsTableError TableEntry) × Option TableEntry → Disk × M → Prop}
    (ht : TableFile n (tableEntries es)) (hC : C (d, m)) (hlive : (d path).live = some f)
    (hf : f.content = tableBytes n (tableEntries es))
    (hok : Q ((tableEntries es).map .ok, (layerOf es key).map fun v => tableEntry (key, v)) (d, m)) :
    wpE (Disk.sem Faults.none) strict H C (readBack path key) Q (fun _ _ => False) (d, m) := by
  have hno : Faults.none.Any → ∀ P : Prop, P := fun ha _ => absurd ha Faults.not_any_none
  refine wpE_bind.mpr (SsTableReader.wpE_open ht hC hlive hf ?_ fun ha _ => hno ha _)
  refine wpE_bind.mpr (SsTableReader.wpE_iter ht hC hlive hf ?_ fun ha _ _ _ => hno ha _)
  refine wpE_bind.mpr (SsTableReader.wpE_get ht hC hlive hf ?_ fun ha _ => hno ha _)
  rw [searchBlock_tableEntries]
  exact wpE_pure.mpr ⟨hC, hok⟩

/-- What the builder wrote, read back. -/
theorem buildTable_round_trip {fs : SimFs} {path : Path} {es : List Entry} {n : FilterSize}
    (key : Bytes) (hfs : fs.Tidy) (hlive : (fs.disk path).live = none) (hsort : Ascending es)
    (hseq : ∀ e ∈ es, e.2.seq < 2 ^ 64) (hfit : TableFits n (tableEntries es)) :
    ∃ summary fs', SimFs.exec (do
        let summary ← buildTable path n es
        let back ← readBack path key
        pure (summary, back)) fs () =
      some (.ok (summary, (tableEntries es).map .ok,
        (layerOf es key).map fun v => tableEntry (key, v)), fs', ()) := by
  have hno : Faults.none.Any → ∀ P : Prop, P := fun ha _ => absurd ha Faults.not_any_none
  obtain ⟨a, fs', _, he, _, hq⟩ := SimFs.exec_ok (C := fun _ => True) (m := ())
    (p := do
      let summary ← buildTable path n es
      let back ← readBack path key
      pure (summary, back))
    (Q := fun a _ => a.2 = ((tableEntries es).map .ok,
      (layerOf es key).map fun v => tableEntry (key, v))) hfs (by
    refine wpE_bind.mpr (wpE_buildTable hsort hseq hlive (fun _ => hfit) trivial
      (fun _ => trivial) (fun ht => ?_) (fun ha _ => hno ha _) fun ha _ _ => hno ha _)
    refine wpE_bind.mpr (wpE_readBack ht trivial (Disk.live_put ..) (List.append_nil _) ?_)
    exact wpE_pure.mpr ⟨trivial, rfl⟩)
  obtain ⟨summary, back⟩ := a
  obtain rfl := hq
  exact ⟨summary, fs', he⟩

/-- What `writeTable` wrote, read back. -/
theorem writeTable_round_trip {fs : SimFs} {path : Path} {es : List Entry} (id expectedKeys : Nat)
    (key : Bytes) (hfs : fs.Tidy) (hlive : (fs.disk path).live = none) (hsort : Ascending es)
    (hseq : ∀ e ∈ es, e.2.seq < 2 ^ 64) (hfit : TableFits (writeSize expectedKeys) (tableEntries es))
    (hne : es ≠ []) :
    ∃ table fs', SimFs.exec (do
        let table ← writeTable path id expectedKeys es
        let back ← (readBack path key).mapError .ssTable
        pure (table, back)) fs () =
      some (.ok (some table, (tableEntries es).map .ok,
        (layerOf es key).map fun v => tableEntry (key, v)), fs', ()) ∧
      (table.keyInRange key = false → layerOf es key = none) := by
  have hno : Faults.none.Any → ∀ P : Prop, P := fun ha _ => absurd ha Faults.not_any_none
  obtain ⟨first, rest, hes⟩ := List.exists_cons_of_ne_nil hne
  obtain ⟨a, fs', _, he, _, hq⟩ := SimFs.exec_ok (C := fun _ => True) (m := ())
    (p := do
      let table ← writeTable path id expectedKeys es
      let back ← (readBack path key).mapError .ssTable
      pure (table, back))
    (Q := fun a _ => a = (some (tableMeta id first rest), (tableEntries es).map .ok,
      (layerOf es key).map fun v => tableEntry (key, v))) hfs (by
    refine wpE_bind.mpr (wpE_writeTable hes hsort hseq hlive (fun _ => hfit) trivial
      (fun _ => trivial) (fun ht => ?_) (fun ha _ => hno ha _) fun ha _ _ => hno ha _)
    refine wpE_bind.mpr (wpE_mapError (wpE_readBack ht trivial (Disk.live_put ..)
      (List.append_nil _) ?_))
    exact wpE_pure.mpr ⟨trivial, rfl⟩)
  obtain rfl := hq
  refine ⟨_, fs', he, fun hout => layerOf_eq_none.mpr fun e hmem hk => ?_⟩
  rw [hes] at hsort hmem
  rw [← hk, keyInRange_of_mem hsort hmem] at hout
  cases hout

/-- Without entries there is an empty file that the reader does not open. -/
theorem writeTable_nil {fs : SimFs} {path : Path} (id expectedKeys : Nat) (key : Bytes)
    (hfs : fs.Tidy) (hlive : (fs.disk path).live = none)
    (hfit : (writeSize expectedKeys).Fits) :
    ∃ fs', SimFs.exec (writeTable path id expectedKeys []) fs () = some (.ok none, fs', ()) ∧
      fs'.contents path = some [] ∧
      ∃ fs'', SimFs.exec (readBack path key) fs' () =
        some (.error (.corrupt "file length 0 is smaller than a footer (48 bytes)"), fs'', ()) := by
  have hno : Faults.none.Any → ∀ P : Prop, P := fun ha _ => absurd ha Faults.not_any_none
  obtain ⟨a, fs', _, he, hfs', rfl, hdisk⟩ := SimFs.exec_ok (C := fun _ => True) (m := ())
    (p := writeTable path id expectedKeys [])
    (Q := fun a σ => a = none ∧ σ.1 = fs.disk.put path .empty) hfs
    (wpE_writeTable_nil hlive (fun _ => hfit) trivial trivial ⟨rfl, rfl⟩ fun ha _ => hno ha _)
  have hput : (fs'.disk path).live = some .empty := by
    dsimp only at hdisk
    rw [hdisk]
    exact Disk.live_put ..
  have hwp : wpE (Disk.sem Faults.none) False False (fun _ => True) (readBack path key)
      (fun _ _ => False)
      (fun err _ => err = .corrupt "file length 0 is smaller than a footer (48 bytes)")
      (fs'.disk, ()) := by
    refine wpE_bind.mpr (wpE_bind.mpr (wpE_mapError (wpE_len trivial (fun b hb => ?_) (fun hgone => ?_)
      fun hfail _ => hno (Faults.any_of_fail hfail) _)))
    · rw [hput] at hb
      obtain rfl := Option.some.inj hb
      exact wpE_throw.mpr ⟨trivial, rfl⟩
    · rw [hput] at hgone
      cases hgone
  refine ⟨fs', he, ?_, ?_⟩
  · rw [hfs'.contents, hput]
    rfl
  · obtain ⟨r, fs'', _, hread⟩ := SimFs.exec_total hfs' hwp
    obtain ⟨-, -, hr⟩ := SimFs.exec_spec hfs' hwp hread
    cases r with
    | ok a => exact hr.elim
    | error err =>
      obtain rfl := hr
      exact ⟨fs'', hread⟩

/-- **A table file gives back what was written to it.**  Through the builder, with a
filter of any size, every ascending list comes back whole and every key finds its entry;
`writeTable` does the same for a list with at least one entry, and no key outside the
range it reports has an entry.  Without entries it reports no table, and what it leaves
is none. -/
theorem table_round_trip {fs : SimFs} {path : Path} {es : List Entry} (id expectedKeys : Nat)
    (key : Bytes) (hfs : fs.Tidy) (hfresh : (fs.files path).liveInode = none)
    (hsort : Ascending es) (hseq : ∀ e ∈ es, e.2.seq < 2 ^ 64) :
    (∀ n, TableFits n (tableEntries es) → ∃ summary fs', SimFs.exec (do
        let summary ← buildTable path n es
        let back ← readBack path key
        pure (summary, back)) fs () =
      some (.ok (summary, (tableEntries es).map .ok,
        (layerOf es key).map fun v => tableEntry (key, v)), fs', ())) ∧
    (TableFits (writeSize expectedKeys) (tableEntries es) →
      (es ≠ [] → ∃ table fs', SimFs.exec (do
          let table ← writeTable path id expectedKeys es
          let back ← (readBack path key).mapError .ssTable
          pure (table, back)) fs () =
        some (.ok (some table, (tableEntries es).map .ok,
          (layerOf es key).map fun v => tableEntry (key, v)), fs', ()) ∧
        (table.keyInRange key = false → layerOf es key = none)) ∧
      (es = [] → ∃ fs', SimFs.exec (writeTable path id expectedKeys es) fs () =
          some (.ok none, fs', ()) ∧
        fs'.contents path = some [] ∧
        ∃ fs'', SimFs.exec (readBack path key) fs' () =
          some (.error (.corrupt "file length 0 is smaller than a footer (48 bytes)"),
            fs'', ()))) := by
  have hlive : (fs.disk path).live = none := by
    rw [SimFs.disk, SimFs.live_slot, hfresh]
    rfl
  refine ⟨fun n hfit => buildTable_round_trip key hfs hlive hsort hseq hfit, fun hfit => ⟨fun hne =>
    writeTable_round_trip id expectedKeys key hfs hlive hsort hseq hfit hne, fun hnil => ?_⟩⟩
  subst hnil
  exact writeTable_nil id expectedKeys key hfs hlive hfit.bits

end Files

section Examples

attribute [local instance] TableHashing.emptyKey

/-- Four keys in two blocks, the first block with a value longer than a block and the
second with a tombstone. -/
def fourKeys : List Entry :=
  [([], ⟨4, .value []⟩), ([1], ⟨3, .value (List.replicate 5000 7)⟩), ([1, 0], ⟨9, .tombstone⟩),
    ([2], ⟨2, .value [5]⟩)]

theorem fourKeys_fits : TableFits (writeSize 4) (tableEntries fourKeys) := by
  refine ⟨?_, ?_, ?_, ?_⟩ <;> decide +kernel

theorem table_round_trip_demo :
    (tableBlocks (tableEntries fourKeys)).length = 3 ∧
    ∃ table fs', SimFs.exec (do
        let table ← writeTable ⟨[], .sst 1⟩ 1 4 fourKeys
        let back ← (readBack ⟨[], .sst 1⟩ [1, 0]).mapError .ssTable
        pure (table, back)) (SimFs.new fun _ => 0) () =
      some (.ok (some table, (tableEntries fourKeys).map .ok, some ⟨[1, 0], 9, .delete⟩), fs', ()) ∧
      (table.keyInRange [1, 0] = false → layerOf fourKeys [1, 0] = none) := by
  refine ⟨by decide +kernel, ?_⟩
  exact ((table_round_trip 1 4 [1, 0] (SimFs.new_tidy _) rfl (by decide) (by decide)).2
    fourKeys_fits).1 (by decide)

/-- A list without entries makes no table: the reader does not open the file. -/
theorem write_table_of_nil :
    (SimFs.exec (do
        let table ← writeTable ⟨[], .sst 1⟩ 1 0 []
        let back ← (readBack ⟨[], .sst 1⟩ []).mapError .ssTable
        pure (table, back)) (SimFs.new fun _ => 0) ()).map (·.1) =
      some (.error (.ssTable (.corrupt "file length 0 is smaller than a footer (48 bytes)"))) := by
  rfl

end Examples

end AccretionDb
