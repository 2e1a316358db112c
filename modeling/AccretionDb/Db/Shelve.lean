import AccretionDb.Compaction.Layout
import AccretionDb.Db.Engine
import AccretionDb.Manifest.Switch

/-! # Putting tables on the shelf

A flush and a compaction do the same thing: they write one table, under the next id, and
install a version that refers to it.  What else the store needs of its files meanwhile is
up to it, and here it is three conditions (`Upkeep`): one on the log, one on the version a
power loss may find, and one on the version in memory, with its tables.  As long as the
version before and the version after meet them, they hold at every moment in between
(`Held`), whichever calls fail.
-/

namespace AccretionDb.Db

open CrashLogic

/-! ### Files that stay -/

/-- The process sees the same files for these tables. -/
def SameLive (dir : Dir) (ids : List Nat) (d d' : Disk) : Prop :=
  ∀ id ∈ ids, (d' (tablePath dir id)).live = (d (tablePath dir id)).live

theorem SameLive.refl (dir : Dir) (ids : List Nat) (d : Disk) : SameLive dir ids d d := fun _ _ => rfl

theorem SameLive.trans {dir : Dir} {ids : List Nat} {d₁ d₂ d₃ : Disk} (h : SameLive dir ids d₁ d₂)
    (h' : SameLive dir ids d₂ d₃) : SameLive dir ids d₁ d₃ :=
  fun id hid => (h' id hid).trans (h id hid)

theorem SameLive.mono {dir : Dir} {ids ids' : List Nat} {d d' : Disk} (h : SameLive dir ids d d')
    (hsub : ∀ id ∈ ids', id ∈ ids) : SameLive dir ids' d d' := fun id hid => h id (hsub id hid)

/-- The log is the same on both disks. -/
def SameLog (dir : Dir) (d d' : Disk) : Prop :=
  ∀ n : Wal.SegName, d' (n.path dir) = d (n.path dir)

section Paths

variable {dir : Dir} {d : Disk} {v : Version}

theorem sameLog_writing (s : Slot) : SameLog dir d (Manifest.writing d dir s) := fun n => by
  rw [Manifest.writing, Function.update_of_ne (segment_ne_manifestTmp dir n)]

theorem sameLive_writing (ids : List Nat) (s : Slot) :
    SameLive dir ids d (Manifest.writing d dir s) := fun id _ => by
  rw [Manifest.writing, Function.update_of_ne (tablePath_ne_tmp dir id)]

theorem sameLog_put (id : Nat) (b : Blob) : SameLog dir d (d.put (tablePath dir id) b) := fun n => by
  rw [Disk.put_of_ne (segment_ne_table dir n id)]

theorem sameLive_put {ids : List Nat} {id : Nat} (hid : id ∉ ids) (b : Blob) :
    SameLive dir ids d (d.put (tablePath dir id) b) := fun i hi => by
  have hne : tablePath dir i ≠ tablePath dir id := fun h => hid (tablePath_inj h ▸ hi)
  rw [Disk.put_of_ne hne]

theorem sameLog_swept {live : List Nat} {d' : Disk} (h : Manifest.Swept dir live d d') :
    SameLog dir d d' := fun n => by
  rcases h (n.path dir) with he | ⟨_, _, i, hi, _⟩
  · exact he
  · obtain ⟨id, _ | _⟩ := n <;> cases hi

theorem sameLive_swept {live ids : List Nat} {d' : Disk} (h : Manifest.Swept dir live d d')
    (hsub : ∀ id ∈ ids, id ∈ live) : SameLive dir ids d d' := fun id hid => by
  rcases h (tablePath dir id) with he | ⟨_, _, i, hi, hno⟩
  · rw [he]
  · obtain rfl := eq_of_parseTableId hi
    exact absurd (hsub _ hid) hno

theorem sameLive_commit (ids : List Nat) : SameLive dir ids d (d.commit dir) := fun id _ => by
  rw [Disk.live_commit]

/-- The next table has a file already, which is in the way. -/
def taken (dir : Dir) (d : Disk) (v : Version) : Bool :=
  (d (tablePath dir v.nextTableId)).live.isSome

theorem taken_eq_false : taken dir d v = false ↔ (d (tablePath dir v.nextTableId)).live = none := by
  rw [taken, ← Bool.not_eq_true, Option.not_isSome_iff_eq_none]

theorem taken_congr {d' : Disk}
    (h : (d' (tablePath dir v.nextTableId)).live = (d (tablePath dir v.nextTableId)).live) :
    taken dir d' v = taken dir d v := by
  rw [taken, h, taken]

end Paths

section Hashed

variable [TableHashing] {dir : Dir} {d : Disk} {v : Version}

theorem sameLog_switched (s : Slot) : SameLog dir d (Manifest.switched d dir v s) := fun n => by
  rw [Manifest.switched, Function.update_of_ne (segment_ne_manifestTmp dir n),
    Disk.put_of_ne (segment_ne_manifest dir n)]

theorem sameLive_switched (ids : List Nat) (s : Slot) :
    SameLive dir ids d (Manifest.switched d dir v s) := fun id _ => by
  rw [Manifest.switched, Function.update_of_ne (tablePath_ne_tmp dir id),
    Disk.put_of_ne (tablePath_ne_manifest dir id)]

/-! ### The conditions -/

/-- What a store needs of its files: `J` of the log, `D` of a version that a power loss may
find, `M` of the version in memory and the tables on the disk. -/
structure Upkeep (dir : Dir) (J : Disk → Prop) (D : Version → Contents → Prop)
    (M : Version → Contents → Disk → Prop) : Prop where
  log : ∀ d d', SameLog dir d d' → J d → J d'
  commit : ∀ d, J d → J (d.commit dir)
  congr : ∀ v T d d', SameLive dir v.referencedIds d d' → M v T d → M v T d'
  durable : ∀ v T d, M v T d → D v T
  words : ∀ v T d, M v T d → v.Words
  kept : ∀ v T d, M v T d → Kept Slot.live dir d T v.referencedIds
  arranged : ∀ v T d, M v T d → Arranged v T

/-- The conditions hold at this moment. -/
def Held (dir : Dir) (J : Disk → Prop) (D : Version → Contents → Prop)
    (M : Version → Contents → Disk → Prop) (σ : Disk × Manifest) : Prop :=
  J σ.1 ∧ (∃ v T, D v T ∧ Image Slot.durable dir σ.1 v T) ∧ ∃ T, M σ.2.current.val T σ.1

/-- Between two operations the version in memory is the one on the disk, and every version
in memory refers to tables that are written. -/
structure Shelf (dir : Dir) (J : Disk → Prop) (M : Version → Contents → Disk → Prop) (T : Contents)
    (σ : Disk × Manifest) : Prop where
  log : J σ.1
  shelved : Manifest.World.Shelved dir σ.2.current.val T σ.1
  mem : M σ.2.current.val T σ.1
  older : ∀ a ∈ σ.2.versions, ∀ id ∈ a.val.referencedIds, id < σ.2.current.val.nextTableId

variable {J : Disk → Prop} {D : Version → Contents → Prop} {M : Version → Contents → Disk → Prop}
variable {T T' : Contents} {m : Manifest} {v' : Version}

theorem Shelf.held {σ : Disk × Manifest} (h : Shelf dir J M T σ) (hu : Upkeep dir J D M) :
    Held dir J D M σ :=
  ⟨h.log, ⟨_, T, hu.durable _ _ _ h.mem, h.shelved.durable⟩, T, h.mem⟩

/-- Holding a version is not noticed. -/
theorem Shelf.hold (h : Shelf dir J M T (d, m)) {m' : Manifest} (hv : m'.versions = m.versions) :
    Shelf dir J M T (d, m') := by
  have hcur : m'.current = m.current := (List.cons.inj hv).1
  obtain ⟨hlog, hshelved, hmem, holder⟩ := h
  change Manifest.World.Shelved dir m.current.val T d at hshelved
  change M m.current.val T d at hmem
  change ∀ a ∈ m.versions, ∀ id ∈ a.val.referencedIds, id < m.current.val.nextTableId at holder
  refine ⟨hlog, ?_, ?_, ?_⟩
  · show Manifest.World.Shelved dir m'.current.val T d
    rwa [hcur]
  · show M m'.current.val T d
    rwa [hcur]
  · show ∀ a ∈ m'.versions, ∀ id ∈ a.val.referencedIds, id < m'.current.val.nextTableId
    rwa [hcur, hv]

/-! ### Installing -/

section Specs

variable {e : Faults} {H : Prop} {C : Disk × Manifest → Prop}

/-- **Installing a version** whose tables are there.  Up to the switch the old one is
found, from then on the new one. -/
theorem wpE_install_held (hu : Upkeep dir J D M) {Q : Unit → Disk × Manifest → Prop}
    {E : ManifestError → Disk × Manifest → Prop} (hC : ∀ σ, Held dir J D M σ → C σ)
    (herr : e.Any → ∀ err σ, C σ → E err σ) (hj : J d) (hD : D v T)
    (hdurable : Image Slot.durable dir d v T) {T₀ : Contents} (hmem : M m.current.val T₀ d)
    (hnew : M v' T' d)
    (holder : ∀ a ∈ m.versions, ∀ id ∈ a.val.referencedIds, id < v'.nextTableId)
    (hok : ∀ σ, Shelf dir J M T' σ → σ.2.current.val = v' → taken dir σ.1 v' = false →
      SameLive dir v'.referencedIds d σ.1 → Q () σ) :
    wpE (Disk.sem e) True H C (Manifest.install dir v') Q E (d, m) := by
  let m' := (m.adopt v').retain
  have hw : v'.Words := hu.words _ _ _ hnew
  have hids := Manifest.mem_liveIds_adopt m v'
  have hlogw : J (Manifest.written d dir v') := hu.commit _ (hu.log _ _ (sameLog_switched _) hj)
  have hlivew : ∀ ids, SameLive dir ids d (Manifest.written d dir v') := fun ids =>
    (sameLive_switched ids _).trans (sameLive_commit ids)
  have hbelow : ∀ id ∈ v'.referencedIds, id < v'.nextTableId := by
    intro id hid
    obtain ⟨table, ht, rfl⟩ := List.mem_map.mp hid
    exact (hu.arranged _ _ _ hnew).below table ht
  refine Manifest.wpE_install herr (fun s => ?_) (fun _ s => ?_) (fun hf => ?_) (fun hf => ?_)
    (fun hf d' hs => ?_) fun hf d' hs hclean => ?_
  · exact hC _ ⟨hu.log _ _ (sameLog_writing s) hj,
      ⟨v, T, hD, Manifest.World.image_writing hdurable s⟩,
      T₀, hu.congr _ _ _ _ (sameLive_writing _ s) hmem⟩
  · exact hC _ ⟨hu.log _ _ (sameLog_switched s) hj,
      ⟨v, T, hD, Manifest.World.image_switched hdurable s⟩,
      T₀, hu.congr _ _ _ _ (sameLive_switched _ s) hmem⟩
  · have hshelved := Manifest.World.shelved_written hw (hf trivial) (hu.kept _ _ _ hnew)
    exact hC _ ⟨hlogw, ⟨v', T', hu.durable _ _ _ hnew, hshelved.durable⟩,
      T₀, hu.congr _ _ _ _ (hlivew _) hmem⟩
  · have hshelved := Manifest.World.shelved_written hw (hf trivial) (hu.kept _ _ _ hnew)
    exact hC _ ⟨hlogw, ⟨v', T', hu.durable _ _ _ hnew, hshelved.durable⟩,
      T', hu.congr _ _ _ _ (hlivew _) hnew⟩
  · have hshelved := Manifest.World.shelved_written hw (hf trivial) (hu.kept _ _ _ hnew)
    have hlive := (hlivew v'.referencedIds).trans (sameLive_swept hs hids)
    have hlog := hu.log _ _ (sameLog_swept hs) hlogw
    refine ⟨hC _ ⟨hlog, ⟨v', T', hu.durable _ _ _ hnew, ?_⟩, T', hu.congr _ _ _ _ hlive hnew⟩,
      hC _ ⟨hu.commit _ hlog, ⟨v', T', hu.durable _ _ _ hnew, ?_⟩,
        T', hu.congr _ _ _ _ (hlive.trans (sameLive_commit _)) hnew⟩⟩
    · exact hshelved.durable.durable_congr hs.durable
    · exact (hshelved.live.swept hs hids).commit
  · have hshelved := Manifest.World.shelved_written hw (hf trivial) (hu.kept _ _ _ hnew)
    have hlive := (hlivew v'.referencedIds).trans (sameLive_swept hs hids)
    have hlive' := hlive.trans (sameLive_commit (d := d') v'.referencedIds)
    have hold : ∀ a ∈ m'.versions, ∀ id ∈ a.val.referencedIds, id < v'.nextTableId := by
      intro a ha id hid
      rcases List.mem_cons.mp ha with rfl | ha
      · exact hbelow id hid
      · rcases List.mem_append.mp (List.mem_filter.mp ha).1 with ha | ha
        · exact holder a (List.mem_cons_of_mem _ ha) id hid
        · obtain rfl := List.mem_singleton.mp ha
          exact holder _ List.mem_cons_self id hid
    refine hok (d'.commit dir, m') ⟨hu.commit _ (hu.log _ _ (sameLog_swept hs) hlogw),
      .commit (hshelved.live.swept hs hids), hu.congr _ _ _ _ hlive' hnew, hold⟩ rfl
      (taken_eq_false.mpr ?_) hlive'
    -- what was not collected belongs to a version in memory
    rw [Disk.live_commit]
    by_contra hsome
    have hmem := hclean _ v'.nextTableId rfl (parse_tablePath hw.nextTableId) (Option.isSome_iff_ne_none.mpr hsome)
    obtain ⟨a, ha, hmem⟩ := List.mem_flatMap.mp hmem
    exact absurd (hold a ha _ hmem) (Nat.lt_irrefl _)

end Specs

/-! ### One more table -/

/-- A new table beside those that are there. -/
theorem kept_update {ids ids' : List Nat} {d' : Disk} {id : Nat} {es : List Entry} {c : Bytes}
    (h : Kept Slot.live dir d T ids) (hs : SameLive dir ids d d') (hid : id ∉ ids)
    (hlive : (d' (tablePath dir id)).live = some ⟨c, []⟩) (ht : Table c es)
    (hids : ∀ i ∈ ids', i ∈ ids ∨ i = id) :
    Kept Slot.live dir d' (Function.update T id es) ids' := by
  intro i hi
  rcases hids i hi with hi | rfl
  · have hne : i ≠ id := fun e => hid (e ▸ hi)
    rw [hs i hi, Function.update_of_ne hne]
    exact h i hi
  · rw [Function.update_self]
    exact ⟨c, hlive, ht⟩

/-- A table has fewer entries than its file has bytes. -/
theorem length_lt_of_tableFile {n : FilterSize} {es : List Entry} (h : TableFile n (tableEntries es)) :
    es.length < 2 ^ 64 := by
  have hlt := h.length_dataBytes_lt
  have hle := TableFile.length_le_dataBytes (tableEntries es)
  rw [length_tableEntries] at hle
  omega

/-- The numbers of a version are words if those of its new table are. -/
theorem words_of_tables (hw : v.Words) {id : Nat} {n : FilterSize} {first : Entry} {rest : List Entry}
    (ht : TableFile n (tableEntries (first :: rest))) (hid : id < 2 ^ 64)
    (hseq : v'.nextSeq < 2 ^ 64) (hnext : v'.nextTableId < 2 ^ 64)
    (htables : ∀ table ∈ v'.allTables, table ∈ v.allTables ∨ table = tableMeta id first rest) :
    v'.Words := by
  refine ⟨hseq, hnext, fun table hmem => ?_⟩
  rcases htables table hmem with hmem | rfl
  · exact hw.tables table hmem
  · exact ⟨hid, length_lt_of_tableFile ht⟩

section Tables

variable {e : Faults} {H : Prop} {C : Disk × Manifest → Prop} {self : Config}

theorem Held.put (hu : Upkeep dir J D M) (h : Held dir J D M (d, m)) (b : Blob) :
    Held dir J D M (d.put (tablePath dir m.current.val.nextTableId) b, m) := by
  obtain ⟨hj, ⟨v, T, hD, hdurable⟩, T₀, hmem⟩ := h
  refine ⟨hu.log _ _ (sameLog_put _ b) hj,
    ⟨v, T, hD, hdurable.durable_congr fun p => Disk.durable_put d _ b p⟩, T₀, ?_⟩
  exact hu.congr _ _ _ _ (sameLive_put (hu.arranged _ _ _ hmem).free b) hmem

/-- **A frozen table goes to the shelf.** -/
theorem wpE_flushTable_held (hu : Upkeep self.dir J D M) {Q : Unit → Disk × Manifest → Prop}
    {E : DbError → Disk × Manifest → Prop} (hC : ∀ σ, Held self.dir J D M σ → C σ)
    (herr : e.Any → ∀ err σ, C σ → E err σ) (h : Shelf self.dir J M T (d, m))
    {frozen : Arc Memtable} {nextSeq : Nat} {first : Entry} {rest : List Entry}
    (hes : frozen.val.snapshot = first :: rest) (hseqs : ∀ x ∈ first :: rest, x.2.seq < 2 ^ 64)
    (hseq : nextSeq < 2 ^ 64) (hroom : m.current.val.nextTableId + 1 < 2 ^ 64)
    (hv' : v' = m.current.val.flushed (tableMeta m.current.val.nextTableId first rest) nextSeq)
    (hT' : T' = Function.update T m.current.val.nextTableId (first :: rest))
    (hnew : ∀ d', SameLive self.dir m.current.val.referencedIds d d' →
      Kept Slot.live self.dir d' T' v'.referencedIds → v'.Words → M v' T' d')
    (hok : taken self.dir d m.current.val = false → ∀ σ, Shelf self.dir J M T' σ →
      σ.2.current.val = v' → taken self.dir σ.1 v' = false →
      SameLive self.dir m.current.val.referencedIds d σ.1 → Q () σ)
    (htaken : taken self.dir d m.current.val = true → ∀ err, E err (d, m)) :
    wpE (Disk.sem e) True H C (flushTable self nextSeq frozen m.current.val) Q E (d, m) := by
  have hheld := h.held hu
  have hfree := (hu.arranged _ _ _ h.mem).free
  have hids : ∀ i ∈ v'.referencedIds, i ∈ m.current.val.referencedIds ∨
      i = m.current.val.nextTableId := by
    subst hv'
    intro i hi
    obtain ⟨table, ht, rfl⟩ := List.mem_map.mp hi
    rcases (Version.mem_flushed ..).mp ht with rfl | ht
    · exact Or.inr rfl
    · exact Or.inl (List.mem_map_of_mem ht)
  have hids' : ∀ i ∈ m.current.val.referencedIds, i ∈ v'.referencedIds := by
    subst hv'
    intro i hi
    obtain ⟨table, ht, rfl⟩ := List.mem_map.mp hi
    exact List.mem_map_of_mem ((Version.mem_flushed ..).mpr (Or.inr ht))
  have hnext : v'.nextTableId = m.current.val.nextTableId + 1 := by
    subst hv'
    exact Nat.max_eq_right (Nat.le_succ _)
  rw [flushTable, hes]
  cases hfile : taken self.dir d m.current.val with
  | false =>
    refine wpE_bind.mpr (wpE_scope (wpE_mapError (wpE_writeTable rfl ?_ hseqs
      (taken_eq_false.mp hfile) (fun hs => absurd trivial hs) (hC _ hheld) (fun b => hC _ (hheld.put hu b)) (fun ht => ?_)
      (fun ha err => herr ha _ _ (hC _ hheld)) fun ha err b => herr ha _ _ (hC _ (hheld.put hu b)))))
    · rw [← hes]
      exact frozen.val.ascending_snapshot
    -- the file is there, and the version that refers to it is installed
    let file : Blob :=
      ⟨tableBytes (writeSize (first :: rest).length) (tableEntries (first :: rest)), []⟩
    let d₁ := d.put (tablePath self.dir m.current.val.nextTableId) file
    have hput : SameLive self.dir m.current.val.referencedIds d d₁ := sameLive_put hfree file
    have hkept : Kept Slot.live self.dir d₁ T' v'.referencedIds := by
      rw [hT']
      exact kept_update (hu.kept _ _ _ h.mem) hput hfree (Disk.live_put ..) ⟨_, ht, rfl⟩ hids
    have hw : v'.Words := by
      refine words_of_tables (hu.words _ _ _ h.mem) ht (Nat.lt_of_succ_lt hroom) ?_ (by omega) fun table hmem => ?_
      · subst hv'
        exact Nat.max_lt.mpr ⟨hseq, (hu.words _ _ _ h.mem).nextSeq⟩
      · subst hv'
        exact ((Version.mem_flushed ..).mp hmem).symm
    obtain ⟨hj, ⟨v, T₁, hD, hdurable⟩, T₀, hmem⟩ := hheld.put hu file
    subst hv'
    refine wpE_mapError (wpE_install_held hu hC (fun ha err σ hc => herr ha _ σ hc) hj hD hdurable
      hmem (hnew _ hput hkept hw) (fun a ha id hid => ?_) fun σ hσ hcur hfree' hlive => ?_)
    · have hlt : id < m.current.val.nextTableId := h.older a ha id hid
      omega
    · exact hok hfile σ hσ hcur hfree' (hput.trans (hlive.mono hids'))
  | true =>
    exact wpE_bind.mpr (wpE_scope (wpE_mapError (wpE_writeTable_exists hfile (hC _ hheld)
      fun _ => htaken hfile _)))

/-! ### Merging a tier -/

/-- The inputs of a compaction are read whole. -/
theorem wpE_readInputs {M' : Type} {m : M'} {C : Disk × M' → Prop}
    {R : CompactionError → Disk × M' → Prop} (hC : C (d, m)) (herr : e.Any → ∀ err, R err (d, m)) :
    ∀ {tables : List TableMeta} {Q : Nat × List (List Entry) → Disk × M' → Prop},
      Kept Slot.live dir d T (tables.map TableMeta.id) →
      (∀ n, Q (n, tables.map fun table => T table.id) (d, m)) →
      wpE (Disk.sem e) True H C (readInputs dir tables) Q R (d, m) := by
  intro tables
  induction tables with
  | nil => exact fun _ hok => wpE_pure.mpr ⟨hC, hok 0⟩
  | cons table tables ih =>
    intro Q hkept hok
    obtain ⟨c, hlive, n, ht, hc⟩ := hkept table.id List.mem_cons_self
    refine wpE_bind.mpr (wpE_mapError (SsTableReader.wpE_open ht hC hlive
      (by rw [Blob.content_mk, List.append_nil, hc]) ?_ fun ha err => herr ha _))
    refine wpE_bind.mpr (wpE_readAllEntries ht hC hlive
      (by rw [Blob.content_mk, List.append_nil, hc]) ?_ fun ha err => herr ha _)
    refine wpE_bind.mpr (ih (fun id hid => hkept id (List.mem_cons_of_mem _ hid)) fun k => ?_)
    exact wpE_pure.mpr ⟨hC, hok _⟩

omit [TableHashing] in
/-- What a compaction writes is what its inputs hold. -/
theorem exists_of_mem_compactEntries {sources : List (List Entry)} (hsort : Sorted sources)
    {drop : Bool} {x : Entry} (hx : x ∈ compactEntries drop sources) : ∃ s ∈ sources, x ∈ s := by
  obtain ⟨i, s, hi, hmem, _⟩ := (Merged.toList hsort).wins x (List.mem_filter.mp hx).1
  exact ⟨s, List.mem_of_getElem? hi, hmem⟩

omit [TableHashing] in
theorem nextTableId_compactTier {t : Nat} (h : compactTier v T t = some (v', T')) :
    v' = v.merged t (outputMeta v.nextTableId (T' v.nextTableId)) ∧
      v'.nextTableId ≤ v.nextTableId + 1 := by
  rw [compactTier] at h
  split at h
  · obtain ⟨rfl, rfl⟩ := Prod.mk.inj (Option.some.inj h)
    rw [Function.update_self]
    refine ⟨rfl, ?_⟩
    cases compactOutput v T t with
    | nil => exact Nat.le_succ _
    | cons first rest => exact Nat.max_le.mpr ⟨Nat.le_succ _, Nat.le_refl _⟩
  · cases h

/-- **A tier is merged.** -/
theorem wpE_compactTier_held (hu : Upkeep dir J D M) {Q : Unit → Disk × Manifest → Prop}
    {E : CompactionError → Disk × Manifest → Prop} (hC : ∀ σ, Held dir J D M σ → C σ)
    (herr : e.Any → ∀ err σ, C σ → E err σ) (h : Shelf dir J M T (d, m)) {t : Nat}
    (hc : compactTier m.current.val T t = some (v', T'))
    (hroom : m.current.val.nextTableId + 1 < 2 ^ 64)
    (hnew : ∀ d', SameLive dir m.current.val.referencedIds d d' →
      Kept Slot.live dir d' T' v'.referencedIds → v'.Words → M v' T' d')
    (hok : taken dir d m.current.val = false → ∀ σ, Shelf dir J M T' σ → σ.2.current.val = v' →
      taken dir σ.1 v' = false → Q () σ)
    (htaken : taken dir d m.current.val = true → ∀ err, E err (d, m)) :
    wpE (Disk.sem e) True H C (Manifest.compactTier dir m.current.val t) Q E (d, m) := by
  have hheld := h.held hu
  have harr : Arranged m.current.val T := hu.arranged _ _ _ h.mem
  have hfree := harr.free
  obtain ⟨above, inputs, below, out, hcomp⟩ := compactTier_eq_some hc
  have hkept := hu.kept _ _ _ h.mem
  have hinputs : ∀ id ∈ inputs.map TableMeta.id, id ∈ m.current.val.referencedIds := by
    intro id hid
    obtain ⟨table, ht, rfl⟩ := List.mem_map.mp hid
    exact List.mem_map_of_mem (hcomp.mem.mpr (Or.inr (Or.inl ht)))
  have hsources := hcomp.sources
  obtain ⟨hsort, _, _⟩ := hcomp.sources_layers harr.describes harr.ordered
  have hasc := (hcomp.output_layer harr.describes harr.ordered).1
  have htables : ∀ table ∈ v'.allTables, table ∈ m.current.val.allTables ∨
      table ∈ (outputMeta m.current.val.nextTableId out).toList := by
    intro table ht
    rw [← Version.mem_tablesNewestFirst, hcomp.after, List.mem_append, List.mem_append] at ht
    rcases ht with ht | ht | ht
    · exact Or.inl (hcomp.mem.mpr (Or.inl ht))
    · exact Or.inr ht
    · exact Or.inl (hcomp.mem.mpr (Or.inr (Or.inr ht)))
  -- what is written, and the version that the program installs
  have hwritten : compactEntries (outputIsBottom m.current.val t)
      (inputs.map fun table => T table.id) = out := by
    rw [← hsources]
    exact hcomp.written.symm
  obtain ⟨hv', hnext⟩ := nextTableId_compactTier hc
  have hT' := hcomp.contents
  rw [hT', Function.update_self] at hv'
  have holder : ∀ a ∈ m.versions, ∀ id ∈ a.val.referencedIds, id < v'.nextTableId :=
    fun a ha id hid => Nat.lt_of_lt_of_le (h.older a ha id hid) hcomp.nextTableId
  have hseqs : ∀ x ∈ out, x.2.seq < 2 ^ 64 := by
    intro x hx
    rw [← hwritten, ← hsources] at hx
    obtain ⟨s, hs, hxs⟩ := exists_of_mem_compactEntries hsort hx
    rw [hsources] at hs
    obtain ⟨table, ht, rfl⟩ := List.mem_map.mp hs
    obtain ⟨c, _, n, htf, _⟩ := hkept table.id (hinputs _ (List.mem_map_of_mem ht))
    exact htf.seqs (tableEntry x) (List.mem_map_of_mem hxs)
  refine wpE_bind.mpr (wpE_scope (wpE_bind.mpr ?_))
  rw [hcomp.tier]
  refine wpE_readInputs (C := fun τ : Disk × Unit => C (τ.1, m)) (hC _ hheld)
    (fun ha err => herr ha err _ (hC _ hheld))
    (fun id hid => hkept id (hinputs id hid)) fun n => ?_
  dsimp only
  rw [Option.getD_some, hwritten]
  by_cases hfile : taken dir d m.current.val = true
  · exact wpE_writeTable_exists hfile (hC _ hheld) fun _ => htaken hfile _
  rw [Bool.not_eq_true] at hfile
  have hfresh := taken_eq_false.mp hfile
  -- the install, whatever was written
  have hinstall : ∀ b : Blob, Kept Slot.live dir (d.put (tablePath dir m.current.val.nextTableId) b)
      T' v'.referencedIds → v'.Words →
      wpE (Disk.sem e) True H C (Manifest.install dir v') Q (fun err => E (.manifest err))
        (d.put (tablePath dir m.current.val.nextTableId) b, m) := by
    intro b hk hw
    obtain ⟨hj, ⟨v, T₁, hD, hdurable⟩, T₀, hmem⟩ := hheld.put hu b
    exact wpE_install_held hu hC (fun ha err σ hσ => herr ha _ σ hσ) hj hD hdurable hmem
      (hnew _ (sameLive_put hfree b) hk hw) holder fun σ hσ hcur hfree' _ =>
        hok hfile σ hσ hcur hfree'
  cases out with
  | nil =>
    refine wpE_writeTable_nil hfresh (fun hs => absurd trivial hs) (hC _ hheld)
      (hC _ (hheld.put hu _)) ?_ fun ha err => herr ha err _ (hC _ hheld)
    refine wpE_mapError ?_
    rw [show m.current.val.merged t none = v' from hv'.symm]
    have hsub : ∀ table ∈ v'.allTables, table ∈ m.current.val.allTables := fun table ht =>
      (htables table ht).resolve_right List.not_mem_nil
    refine hinstall _ ?_ ⟨?_, ?_, fun table ht => (hu.words _ _ _ h.mem).tables table (hsub table ht)⟩
    · intro id hid
      obtain ⟨table, ht, rfl⟩ := List.mem_map.mp hid
      have hmem := List.mem_map_of_mem (f := TableMeta.id) (hsub table ht)
      have hne : table.id ≠ m.current.val.nextTableId := fun e => hfree (e ▸ hmem)
      rw [hT', Function.update_of_ne hne, Disk.put_of_ne fun e => hne (tablePath_inj e)]
      exact hkept _ hmem
    · rw [hcomp.nextSeq]
      exact (hu.words _ _ _ h.mem).nextSeq
    · omega
  | cons first rest =>
    refine wpE_writeTable rfl hasc hseqs hfresh (fun hs => absurd trivial hs) (hC _ hheld)
      (fun b => hC _ (hheld.put hu b)) (fun ht => ?_) (fun ha err => herr ha err _ (hC _ hheld))
      fun ha err b => herr ha err _ (hC _ (hheld.put hu b))
    refine wpE_mapError ?_
    rw [show m.current.val.merged t (some (tableMeta m.current.val.nextTableId first rest)) = v'
      from hv'.symm]
    refine hinstall _ ?_ ?_
    · rw [hT']
      refine kept_update hkept (sameLive_put hfree _) hfree (Disk.live_put ..) ⟨_, ht, rfl⟩ ?_
      intro id hid
      obtain ⟨table, htab, rfl⟩ := List.mem_map.mp hid
      rcases htables table htab with hmem | hmem
      · exact Or.inl (List.mem_map_of_mem hmem)
      · obtain rfl := List.mem_singleton.mp hmem
        exact Or.inr rfl
    · refine words_of_tables (hu.words _ _ _ h.mem) ht (Nat.lt_of_succ_lt hroom) ?_
        (Nat.lt_of_le_of_lt hnext hroom) fun table hmem => ?_
      · rw [hcomp.nextSeq]
        exact (hu.words _ _ _ h.mem).nextSeq
      · exact (htables table hmem).imp_right List.mem_singleton.mp

/-! ### The cascade -/

omit [TableHashing] in
/-- A tier that is full can be compacted. -/
theorem exists_compactTier {fanout t : Nat} (ha : Arranged v T) (h : firstFull fanout v = some t) :
    ∃ v' T', compactTier v T t = some (v', T') :=
  ⟨_, _, if_pos ⟨(firstFull_eq_some h).1, ha.free⟩⟩

/-- **The cascade keeps the shelf**, if a compaction does. -/
theorem wpE_cascade_held (hu : Upkeep dir J D M) {Q : Unit → Disk × Manifest → Prop}
    {E : CompactionError → Disk × Manifest → Prop} (hC : ∀ σ, Held dir J D M σ → C σ)
    (hhold : ∀ d m m', m'.versions = m.versions → C (d, m) → C (d, m'))
    (herr : e.Any → ∀ err σ, C σ → E err σ) {fanout : Nat}
    (hstep : ∀ v T d t v' T' d', M v T d → compactTier v T t = some (v', T') →
      SameLive dir v.referencedIds d d' → Kept Slot.live dir d' T' v'.referencedIds → v'.Words →
        M v' T' d') :
    ∀ (rounds : Nat) {d : Disk} {m : Manifest} {T : Contents}, Shelf dir J M T (d, m) →
      m.current.val.nextTableId + rounds < 2 ^ 64 →
      (∀ σ T', Shelf dir J M T' σ → taken dir σ.1 σ.2.current.val = taken dir d m.current.val →
        (taken dir d m.current.val = true → firstFull fanout m.current.val = none) → Q () σ) →
      (taken dir d m.current.val = true → firstFull fanout m.current.val ≠ none → ∀ err σ T',
        Shelf dir J M T' σ → taken dir σ.1 σ.2.current.val = true → E err σ) →
      wpE (Disk.sem e) True True C (Manifest.cascade dir fanout rounds) Q E (d, m) := by
  intro rounds
  induction rounds with
  | zero => exact fun h _ _ _ => wpE_hang (hC _ (h.held hu)) trivial
  | succ rounds ih =>
    intro d m T h hroom hok htaken
    have hpin : Shelf dir J M T (d, m.pin) := h.hold rfl
    refine wpE_bind.mpr (Manifest.wpE_withCurrent .self (hC _ (h.held hu))
      (fun σ hc => hhold σ.1 σ.2 _ rfl hc) ?_)
    cases hfull : firstFull fanout m.current.val with
    | none =>
      have hget : firstFull fanout (Part.self.get m).current.val = none := hfull
      rw [hget]
      have hsame : Shelf dir J M T (d, m.pin.unpin m.current) := h.hold rfl
      exact wpE_pure.mpr ⟨hC _ (hpin.held hu), wpE_pure.mpr ⟨hC _ (hsame.held hu),
        hok _ T hsame rfl fun _ => hfull⟩⟩
    | some t =>
      have hget : firstFull fanout (Part.self.get m).current.val = some t := hfull
      rw [hget]
      obtain ⟨v', T', hc⟩ := exists_compactTier (hu.arranged _ _ _ h.mem) hfull
      refine wpE_bind.mpr (wpE_compactTier_held hu hC (fun ha err σ hσ => ?_) hpin hc ?_
        (fun d' hs hk hw => hstep _ _ _ _ _ _ _ h.mem hc hs hk hw)
        (fun hfree σ hσ hcur hfree' => ?_) fun hfile err => ?_)
      · exact herr ha err _ (hhold σ.1 σ.2 _ rfl hσ)
      · show m.current.val.nextTableId + 1 < _
        omega
      · -- the pass has installed a version, and the loop goes on
        have hσ' : Shelf dir J M T' (σ.1, σ.2.unpin m.current) := hσ.hold rfl
        have hnext : taken dir σ.1 (σ.2.unpin m.current).current.val = false := by
          show taken dir σ.1 σ.2.current.val = false
          rwa [hcur]
        have hfree : taken dir d m.current.val = false := hfree
        refine wpE_pure.mpr ⟨hC _ (hσ.held hu), ih hσ' ?_ (fun τ T'' hτ hsame _ => ?_)
          fun hfile => ?_⟩
        · show σ.2.current.val.nextTableId + rounds < _
          rw [hcur]
          have hle : v'.nextTableId ≤ m.current.val.nextTableId + 1 :=
            (nextTableId_compactTier hc).2
          omega
        · refine hok τ T'' hτ (hsame.trans (hnext.trans hfree.symm)) fun hfile => ?_
          exact absurd (hfree.symm.trans hfile) Bool.false_ne_true
        · exact absurd (hnext.symm.trans hfile) Bool.false_ne_true
      · refine htaken hfile ?_ err _ T (h.hold rfl) hfile
        rw [hfull]
        exact Option.some_ne_none t

end Tables

end Hashed

end AccretionDb.Db
