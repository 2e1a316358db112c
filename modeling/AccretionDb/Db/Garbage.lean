import AccretionDb.Compaction.Merge
import AccretionDb.Db.Run
import AccretionDb.Db.Tail
import AccretionDb.Wal.Confine

/-! # Table files that nobody needs

Garbage is collected when a version is installed, and what any version in memory still
refers to is kept.  A flush only adds tables, so the versions before it refer to no
others, and nothing is left behind.  A compaction pass holds the version whose tables
it replaces until after its own install, so their files stay, and only a later install
can delete them (`compaction_leaves_inputs`).  In a run whose flushes find no full tier
the directory has exactly the files of the current version's tables, from the first table
on that is flushed, and before it if the directory that was opened had
(`gc_leaves_no_garbage`).
-/

namespace AccretionDb.Db

open CrashLogic

/-! ### Directories without garbage -/

/-- The table files of the directory are those that the version refers to. -/
def Exact (dir : Dir) (d : Disk) (v : Version) : Prop :=
  ∀ p, p.dir = dir → IsTableFile p →
    ((d p).live.isSome ↔ ∃ id ∈ v.referencedIds, p = tablePath dir id)

/-- Every table that the version refers to has its file, and the other table files, if
there are any, have names that the engine gives. -/
structure Has (dir : Dir) (d : Disk) (v : Version) : Prop where
  there : ∀ id ∈ v.referencedIds, (d (tablePath dir id)).live.isSome
  named : ∀ p, p.dir = dir → IsTableFile p → (d p).live.isSome →
    ∃ id, p = tablePath dir id ∧ (id < 2 ^ 64 ∨ id ∈ v.referencedIds)

/-- The directory has what it needs, and nothing else where `clean` or where the current
version is not the one with this address.  No version in memory refers to another table
than the current one does. -/
structure Nested (clean : Prop) (addr : Nat) (dir : Dir) (d : Disk) (m : Manifest) : Prop where
  has : Has dir d m.current.val
  exact : clean ∨ m.current.addr ≠ addr → Exact dir d m.current.val
  older : ∀ a ∈ m.versions, ∀ id ∈ a.val.referencedIds, id ∈ m.current.val.referencedIds
  later : addr < m.nextAddr

theorem Exact.congr {dir : Dir} {d d' : Disk} {v : Version} (h : Exact dir d v)
    (hs : SameTables d d') : Exact dir d' v := by
  intro p hdir hp
  rw [hs p hp]
  exact h p hdir hp

theorem Has.congr {dir : Dir} {d d' : Disk} {v : Version} (h : Has dir d v)
    (hs : SameTables d d') : Has dir d' v := by
  refine ⟨fun id hid => ?_, fun p hdir hp hl => ?_⟩
  · rw [hs (tablePath dir id) trivial]
    exact h.there id hid
  · rw [hs p hp] at hl
    exact h.named p hdir hp hl

theorem Exact.has {dir : Dir} {d : Disk} {v : Version} (h : Exact dir d v) : Has dir d v := by
  refine ⟨fun id hid => (h (tablePath dir id) rfl trivial).mpr ⟨id, hid, rfl⟩,
    fun p hdir hp hl => ?_⟩
  obtain ⟨id, hid, rfl⟩ := (h p hdir hp).mp hl
  exact ⟨id, rfl, Or.inr hid⟩

/-- A directory that has what it needs, and no garbage, is exact. -/
theorem Has.exact {dir : Dir} {d : Disk} {v : Version} {live : List Nat} (h : Has dir d v)
    (hclean : Manifest.NoGarbage dir live d) (hlive : ∀ id ∈ live, id ∈ v.referencedIds) :
    Exact dir d v := by
  intro p hdir hp
  constructor
  · intro hl
    obtain ⟨id, rfl, hword | hid⟩ := h.named p hdir hp hl
    · exact ⟨id, hlive id (hclean _ id hdir (parse_tablePath hword) hl), rfl⟩
    · exact ⟨id, hid, rfl⟩
  · rintro ⟨id, hid, rfl⟩
    exact h.there id hid

section Nested

variable {clean : Prop} {addr : Nat} {dir : Dir} {d d' : Disk} {m m' : Manifest}

theorem Nested.congr (h : Nested clean addr dir d m) (hs : SameTables d d') :
    Nested clean addr dir d' m :=
  ⟨h.has.congr hs, fun hc => (h.exact hc).congr hs, h.older, h.later⟩

/-- Only the versions count, not who holds them. -/
theorem Nested.held (h : Nested clean addr dir d m) (hm : m'.versions = m.versions)
    (hn : m'.nextAddr = m.nextAddr) : Nested clean addr dir d m' := by
  obtain ⟨hc, ho⟩ := List.cons.inj hm
  refine ⟨hc ▸ h.has, fun hclean => ?_, fun a ha id hid => ?_, hn ▸ h.later⟩
  · rw [hc] at hclean ⊢
    exact h.exact hclean
  · rw [hc]
    exact h.older a (hm ▸ ha) id hid

end Nested

theorem referencedIds_flushed (v : Version) (table : TableMeta) (nextSeq : Nat) (id : Nat) :
    id ∈ (v.flushed table nextSeq).referencedIds ↔ id ∈ v.referencedIds ∨ id = table.id := by
  cases hv : v.tiers with
  | nil =>
    simp only [Version.referencedIds, Version.allTables, Version.flushed, hv, List.flatten_cons,
      List.flatten_nil, List.append_nil, List.map_cons, List.map_nil, List.mem_singleton,
      List.not_mem_nil, false_or]
  | cons tier tiers =>
    simp only [Version.referencedIds, Version.allTables, Version.flushed, hv, List.flatten_cons,
      List.map_append, List.map_cons, List.map_nil, List.mem_append, List.mem_singleton]
    tauto

/-- The file of a new table joins the others. -/
theorem Has.flushed {dir : Dir} {d : Disk} {v : Version} (h : Has dir d v) (table : TableMeta)
    (nextSeq : Nat) (f : Blob) :
    Has dir (d.put (tablePath dir table.id) f) (v.flushed table nextSeq) := by
  refine ⟨fun id hid => ?_, fun p hdir hp hl => ?_⟩
  · by_cases hpath : tablePath dir id = tablePath dir table.id
    · rw [hpath, Disk.live_put]
      rfl
    · rw [Disk.put_of_ne hpath]
      rcases (referencedIds_flushed ..).mp hid with hid | rfl
      · exact h.there id hid
      · exact absurd rfl hpath
  · by_cases hpath : p = tablePath dir table.id
    · exact ⟨table.id, hpath, Or.inr ((referencedIds_flushed ..).mpr (Or.inr rfl))⟩
    · rw [Disk.put_of_ne hpath] at hl
      obtain ⟨id, rfl, hword | hid⟩ := h.named p hdir hp hl
      · exact ⟨id, rfl, Or.inl hword⟩
      · exact ⟨id, rfl, Or.inr ((referencedIds_flushed ..).mpr (Or.inl hid))⟩

/-- Collecting what the version does not refer to takes nothing that it needs. -/
theorem Has.swept {dir : Dir} {d d' : Disk} {v : Version} {live : List Nat} (h : Has dir d v)
    (hs : Manifest.Swept dir live d d') (hlive : ∀ id ∈ v.referencedIds, id ∈ live) :
    Has dir d' v := by
  refine ⟨fun id hid => ?_, fun p hdir hp hl => ?_⟩
  · rcases hs (tablePath dir id) with he | ⟨_, -, i, hi, hno⟩
    · rw [he]
      exact h.there id hid
    · obtain rfl := eq_of_parseTableId hi
      exact absurd (hlive _ hid) hno
  · rcases hs p with he | ⟨_, he, -⟩
    · rw [he] at hl
      exact h.named p hdir hp hl
    · rw [he, Slot.live_unlink] at hl
      cases hl

section Programs

variable [TableHashing] {self : Config} {d : Disk} {clean : Prop} {addr : Nat}

/-- **Installing a version that keeps all tables** leaves no garbage, whatever there was
before. -/
theorem wpE_install_nested {dir : Dir} {m : Manifest} {v : Version}
    (hold : ∀ a ∈ m.versions, ∀ id ∈ a.val.referencedIds, id ∈ v.referencedIds)
    (hhas : Has dir d v) (hlater : addr < m.nextAddr) :
    wpE (Disk.sem Faults.none) False True (fun _ => True) (Manifest.install dir v)
      (fun _ σ => Nested clean addr dir σ.1 σ.2 ∧ σ.2.current.val = v) (fun _ _ => False)
      (d, m) := by
  have hno : ∀ {P : Prop}, Faults.none.Any → P := fun ha => absurd ha Faults.not_any_none
  refine Manifest.wpE_install (fun ha => hno ha) (fun _ => trivial) (fun _ _ => trivial)
    (fun _ => trivial) (fun _ => trivial) (fun _ _ _ => ⟨trivial, trivial⟩) fun _ d' hs hclean => ?_
  have hlive := Manifest.mem_liveIds_adopt m v
  have hhas' := (hhas.congr (sameTables_written d dir v)).swept hs hlive
  have holder : ∀ a ∈ (m.adopt v).retain.versions, ∀ id ∈ a.val.referencedIds,
      id ∈ v.referencedIds := by
    intro a ha id hid
    rcases List.mem_cons.mp ha with rfl | ha
    · exact hid
    · have ha' := (List.mem_filter.mp ha).1
      rcases List.mem_append.mp ha' with ha' | ha'
      · exact hold a (List.mem_cons_of_mem _ ha') id hid
      · obtain rfl := List.mem_singleton.mp ha'
        exact hold _ List.mem_cons_self id hid
  have hsame := (SameTables.refl d').commit dir
  refine ⟨⟨hhas'.congr hsame, fun _ => (hhas'.exact hclean fun id hid => ?_).congr hsame, holder,
    Nat.lt_succ_of_lt hlater⟩, rfl⟩
  -- what is in use is what some version in memory refers to
  obtain ⟨a, ha, hid⟩ := List.mem_flatMap.mp hid
  exact holder a ha id hid

/-- **One table is flushed**: its file is one more, and no garbage is left. -/
theorem wpE_flushTable {nextSeq : Nat} {frozen : Arc Memtable} {m : Manifest}
    (hne : frozen.val.snapshot ≠ []) (h : Nested clean addr self.dir d m) :
    wpE (Disk.sem Faults.none) False True (fun _ => True)
      (flushTable self nextSeq frozen m.current.val)
      (fun _ σ => Nested clean addr self.dir σ.1 σ.2 ∧
        ∃ table, σ.2.current.val = m.current.val.flushed table nextSeq)
      (fun _ σ => Nested clean addr self.dir σ.1 σ.2) (d, m) := by
  obtain ⟨first, rest, hes⟩ := List.exists_cons_of_ne_nil hne
  refine wpE_bind.mpr (wpE_scope (wpE_mapError (wpE_post (wpE_writeTable_put
    frozen.val.ascending_snapshot d ()) (fun t σ _ hq => ?_) fun _ σ _ hq => ?_)))
  · obtain ⟨⟨f, rfl⟩, ht⟩ := hq
    rw [ht first rest hes]
    have hhas := h.has.flushed (tableMeta m.current.val.nextTableId first rest) nextSeq f
    refine wpE_mapError (wpE_post (wpE_install_nested (fun a ha id hid => ?_) hhas h.later)
      (fun _ σ _ hq => ⟨hq.1, _, hq.2⟩) fun _ _ _ hf => hf.elim)
    exact (referencedIds_flushed ..).mpr (Or.inl (h.older a ha id hid))
  · rw [hq]
    exact h

end Programs

/-! ### Flushes that find no full tier -/

/-- With `n` more tables in tier 0 no tier is full. -/
def Quiet (fanout : Nat) (v : Version) (n : Nat) : Prop :=
  ∀ t, t < v.numTiers ∨ t = 0 ∧ 0 < n → v.tierLen t + (if t = 0 then n else 0) < fanout

/-- Only the tiers that there are count, and the one that the tables go to. -/
theorem quiet_of_lt {fanout n : Nat} {v : Version}
    (h : ∀ t < v.numTiers + 1, v.tierLen t + (if t = 0 then n else 0) < fanout) :
    Quiet fanout v n := fun t ht => h t (by omega)

theorem Quiet.firstFull {fanout : Nat} {v : Version} (h : Quiet fanout v 0) :
    firstFull fanout v = none := by
  refine firstFull_eq_none.mpr fun t ht => ?_
  have := h t (Or.inl ht)
  omega

theorem numTiers_flushed (v : Version) (table : TableMeta) (nextSeq : Nat) :
    (v.flushed table nextSeq).numTiers = max v.numTiers 1 := by
  cases hv : v.tiers with
  | nil => simp only [Version.numTiers, Version.flushed, hv, List.length_cons, List.length_nil]; omega
  | cons tier tiers => simp only [Version.numTiers, Version.flushed, hv, List.length_cons]; omega

theorem tierLen_flushed (v : Version) (table : TableMeta) (nextSeq t : Nat) :
    (v.flushed table nextSeq).tierLen t = v.tierLen t + (if t = 0 then 1 else 0) := by
  cases hv : v.tiers with
  | nil => cases t <;> simp [Version.tierLen, Version.flushed, hv]
  | cons tier tiers => cases t <;> simp [Version.tierLen, Version.flushed, hv]

theorem Quiet.flushed {fanout n : Nat} {v : Version} (h : Quiet fanout v (n + 1))
    (table : TableMeta) (nextSeq : Nat) : Quiet fanout (v.flushed table nextSeq) n := by
  intro t ht
  rw [numTiers_flushed] at ht
  rw [tierLen_flushed]
  have := h t (by omega)
  by_cases h0 : t = 0
  · simp only [h0, if_true] at this ⊢
    omega
  · simp only [h0, if_false] at this ⊢
    omega

/-- The state of a database without garbage. -/
structure Collected (clean : Prop) (addr : Nat) (cfg : Config) (d : Disk) (db : Db) : Prop where
  nested : Nested clean addr cfg.dir d db.manifest
  sits : Wal.Sits cfg.dir db.wal.writer.active
  full : ∀ t ∈ db.memtables.frozen, t.val.snapshot ≠ []

/-- The flush of these memtables finds no full tier. -/
def QuietFlush (self : Config) (v : Version) (s : MemtableSet) : Prop :=
  Quiet self.options.tierFanout v (freezeActive s).frozen.length

variable {self : Config} {clean : Prop} {addr : Nat}

theorem Collected.discard {d : Disk} {db : Db} (h : Collected clean addr self d db) (t : Arc Memtable)
    {m : Manifest} {d' : Disk} (hm : Nested clean addr self.dir d' m) :
    Collected clean addr self d' (onMemtables (MemtableSet.discardFrozen t) { db with manifest := m }) :=
  ⟨hm, h.sits, fun u hu => h.full u (List.mem_filter.mp hu).1⟩

theorem Collected.congr {d d' : Disk} {db : Db} (h : Collected clean addr self d db)
    (hs : SameTables d d') : Collected clean addr self d' db := ⟨h.nested.congr hs, h.sits, h.full⟩

/-- What is frozen has entries. -/
theorem Collected.freeze {d : Disk} {db : Db} (h : Collected clean addr self d db) :
    Collected clean addr self d (onMemtables freezeActive db) :=
  ⟨h.nested, h.sits, filled_freezeActive h.full⟩

theorem Collected.onWrite {d : Disk} {db : Db} (h : Collected clean addr self d db)
    (f : WriteState → WriteState) : Collected clean addr self d (onWrite f db) := ⟨h.nested, h.sits, h.full⟩

section Flush

variable [TableHashing]

/-- **The frozen tables are flushed** one after the other. -/
theorem wpE_flushFrozen {nextSeq : Nat} : ∀ {todo : List (Arc Memtable)} {d : Disk} {db : Db},
    Collected clean addr self d db → db.memtables.frozen = todo →
    Quiet self.options.tierFanout db.manifest.current.val todo.length →
    wpE (Disk.sem Faults.none) False True (fun _ => True) (flushFrozen self nextSeq todo)
      (fun _ σ => Collected clean addr self σ.1 σ.2 ∧
        Quiet self.options.tierFanout σ.2.manifest.current.val 0)
      (fun _ σ => Collected clean addr self σ.1 σ.2) (d, db) := by
  intro todo
  induction todo with
  | nil => exact fun hc _ hq => wpE_pure.mpr ⟨trivial, hc, hq⟩
  | cons t todo ih =>
    intro d db hc hfrozen hq
    have hne : t.val.snapshot ≠ [] := hc.full t (hfrozen ▸ List.mem_cons_self)
    refine wpE_bind.mpr (Manifest.wpE_withCurrent manifestPart trivial (fun _ _ => trivial) ?_)
    have hpin : Nested clean addr self.dir d db.manifest.pin := hc.nested.held rfl rfl
    refine wpE_bind.mpr (wpE_zoom manifestPart (wpE_post (wpE_flushTable hne hpin)
      (fun _ σ _ hσ => ?_) fun _ σ _ hσ => ?_))
    · obtain ⟨d', m⟩ := σ
      obtain ⟨hm, table, hcur⟩ := hσ
      have hheld : Nested clean addr self.dir d' (m.unpin db.manifest.current) := hm.held rfl rfl
      refine wpE_modify trivial trivial (ih (hc.discard t hheld) (MemtableSet.frozen_discard hfrozen) ?_)
      have hcur' : (m.unpin db.manifest.current).current.val =
          db.manifest.current.val.flushed table nextSeq := hcur
      show Quiet _ (m.unpin db.manifest.current).current.val _
      rw [hcur']
      exact hq.flushed table nextSeq
    · exact ⟨hσ.held rfl rfl, hc.sits, hc.full⟩

theorem wpE_flushQuiesced {d : Disk} {db : Db} (hc : Collected clean addr self d db)
    (hq : QuietFlush self db.manifest.current.val db.memtables) :
    wpE (Disk.sem Faults.none) False True (fun _ => True) (flushQuiesced self)
      (fun _ σ => Collected clean addr self σ.1 σ.2) (fun _ σ => Collected clean addr self σ.1 σ.2) (d, db) := by
  refine wpE_bind.mpr (wpE_modify trivial trivial (wpE_bind.mpr (wpE_get trivial ?_)))
  refine wpE_bind.mpr (wpE_post (wpE_flushFrozen hc.freeze rfl hq) (fun _ σ _ hσ => ?_)
    fun _ _ _ hσ => hσ)
  obtain ⟨d₁, db₁⟩ := σ
  obtain ⟨hc₁, hq₁⟩ := hσ
  -- the log is reset, which touches no table
  have hunsigned : Wal.Unsigned self.dir (SameTables d₁) := fun _ id s h =>
    h.update (p := Wal.signedPath self.dir id) not_false s
  refine wpE_bind.mpr (wpE_mapError (wpE_zoom walPart (wpE_post (Wal.keeps_reset
    (SameTables.beside d₁ self.dir) hunsigned (d₁, db₁.wal) ⟨.refl d₁, hc₁.sits⟩)
    (fun _ σ _ hσ => ?_) fun _ σ _ hσ => ?_)))
  · have hc₂ : Collected clean addr self σ.1 (walPart.set σ.2 db₁) :=
      ⟨hc₁.nested.congr hσ.1, hσ.2, hc₁.full⟩
    exact wpE_mapError (wpE_zoom manifestPart (Manifest.wpE_cascade_quiet trivial trivial trivial
      (fun _ _ => trivial) hq₁.firstFull ⟨hc₂.nested.held rfl rfl, hc₂.sits, hc₂.full⟩))
  · exact ⟨hc₁.nested.congr hσ.1, hσ.2, hc₁.full⟩

theorem wpE_flushLocked {d : Disk} {db : Db} (hc : Collected clean addr self d db)
    (hq : QuietFlush self db.manifest.current.val db.memtables) :
    wpE (Disk.sem Faults.none) False True (fun _ => True) (flushLocked self)
      (fun _ σ => Collected clean addr self σ.1 σ.2) (fun _ σ => Collected clean addr self σ.1 σ.2) (d, db) := by
  refine wpE_bind.mpr (wpE_modifyGet trivial trivial ?_)
  split
  · exact wpE_hang trivial trivial
  · have hdone : ∀ (r : Except DbError Unit) (σ : Disk × Db), Collected clean addr self σ.1 σ.2 →
        wpE (Disk.sem Faults.none) False True (fun _ => True)
          (Act.modify (Db.onWrite (WriteState.setPending false)) >>= fun _ => Act.ofExcept r)
          (fun _ σ => Collected clean addr self σ.1 σ.2) (fun _ σ => Collected clean addr self σ.1 σ.2) σ := by
      intro r σ hσ
      refine wpE_bind.mpr (wpE_modify trivial trivial (wpE_ofExcept.mpr ⟨trivial, ?_⟩))
      cases r with
      | ok _ => exact hσ.onWrite _
      | error _ => exact hσ.onWrite _
    refine wpE_bind.mpr (wpE_attempt (wpE_post (wpE_flushQuiesced (hc.onWrite _) hq)
      (fun a σ _ hσ => ?_) fun err σ _ hσ => ?_))
    · exact hdone (.ok a) σ hσ
    · exact hdone (.error err) σ hσ

/-- The table a write goes to, if it is not the one that fills it. -/
theorem wpE_writeKind {key : Bytes} {kind : ValueKind} {d : Disk} {db : Db}
    (hc : Collected clean addr self d db)
    (hq : (db.memtables.insertIfNewer key ⟨db.write.nextSeq, kind⟩).isFull = true →
      QuietFlush self db.manifest.current.val
        (db.memtables.insertIfNewer key ⟨db.write.nextSeq, kind⟩)) :
    wpE (Disk.sem Faults.none) False True (fun _ => True) (writeKind self key kind)
      (fun _ σ => Collected clean addr self σ.1 σ.2) (fun _ σ => Collected clean addr self σ.1 σ.2) (d, db) := by
  refine wpE_bind.mpr (wpE_modifyGet trivial trivial ?_)
  split
  · exact wpE_hang trivial trivial
  have hc₁ := hc.onWrite WriteState.claim
  refine wpE_bind.mpr (wpE_attempt (wpE_zoom walPart (wpE_post (Wal.keeps_append
    (SameTables.beside d self.dir) _ (d, db.wal) ⟨.refl d, hc.sits⟩) (fun _ σ _ hσ => ?_)
    fun _ σ _ hσ => ?_)))
  · have hc₂ : Collected clean addr self σ.1 (onMemtables (MemtableSet.insertIfNewer key
        ⟨db.write.nextSeq, kind⟩) (walPart.set σ.2 (Db.onWrite WriteState.claim db))) :=
      ⟨hc.nested.congr hσ.1, hσ.2, hc.full⟩
    refine wpE_bind.mpr (wpE_modify trivial trivial (wpE_bind.mpr (wpE_modifyGet trivial trivial ?_)))
    split
    · next hfull => exact wpE_flushLocked (hc₂.onWrite _) (hq hfull)
    · exact wpE_pure.mpr ⟨trivial, hc₂.onWrite _⟩
  · have hc₂ : Collected clean addr self σ.1 (walPart.set σ.2 (Db.onWrite WriteState.claim db)) :=
      ⟨hc.nested.congr hσ.1, hσ.2, hc.full⟩
    exact wpE_bind.mpr (wpE_modify trivial trivial (wpE_throw.mpr ⟨trivial, hc₂.onWrite _⟩))

end Flush

/-! ### Runs -/

namespace Command

/-- If the command flushes, the flush finds no full tier. -/
def Calm (self : Config) (db : Db) (c : Command) : Prop :=
  ∀ s, c.flushes db = some s → QuietFlush self db.manifest.current.val s

end Command

section Runs

variable [TableHashing]

/-- A step whose flush, if it is one, finds no full tier. -/
def CalmStep (self : Config) (x y : SimFs × Db) : Prop :=
  ∃ c, Step self c x y ∧ ∀ c' ∈ c, c'.Calm self x.2

theorem wpE_command {c : Command} {d : Disk} {db : Db} (hc : Collected clean addr self d db)
    (hcalm : c.Calm self db) :
    wpE (Disk.sem Faults.none) False True (fun _ => True) (c.program self)
      (fun _ σ => Collected clean addr self σ.1 σ.2) (fun _ σ => Collected clean addr self σ.1 σ.2) (d, db) := by
  cases c with
  | put key value => exact wpE_writeKind hc fun hfull => hcalm _ (Command.filled_eq_some hfull)
  | delete key => exact wpE_writeKind hc fun hfull => hcalm _ (Command.filled_eq_some hfull)
  | flush => exact wpE_flushLocked hc (hcalm _ rfl)

theorem CalmStep.collected {x y : SimFs × Db} (h : CalmStep self x y) (ht : x.1.Tidy)
    (hc : Collected clean addr self x.1.disk x.2) : y.1.Tidy ∧ Collected clean addr self y.1.disk y.2 := by
  obtain ⟨c, hstep, hcalm⟩ := h
  cases hstep with
  | @command c s db r s' db' hexec =>
    obtain ⟨ht', -, hpost⟩ := SimFs.exec_spec ht (wpE_command hc (hcalm c rfl)) hexec
    cases r with
    | ok _ => exact ⟨ht', hpost⟩
    | error _ => exact ⟨ht', hpost⟩
  | take => exact ⟨ht, hc.nested.held rfl rfl, hc.sits, hc.full⟩
  | drop version => exact ⟨ht, hc.nested.held rfl rfl, hc.sits, hc.full⟩

/-- An opened directory that has the tables of its manifest. -/
theorem collected_open {s s' : SimFs} {v : Version} {bufs : List (Wal.SegName × Bytes)} {db : Db}
    (ht : s.Tidy) (hm : Loads self.dir s.disk v) (hb : Wal.Buffers self.dir s.disk bufs)
    (hhas : Has self.dir s.disk v) (hclean : clean → Exact self.dir s.disk v)
    (hopen : s.exec (openOn self) () = some (.ok db, s', ())) :
    s'.Tidy ∧ Collected clean db.manifest.current.addr self s'.disk db := by
  obtain ⟨ht', -, wal, x, -, hx, rfl, hlog, hsame⟩ := SimFs.exec_spec ht
    (wpE_openOn (m := ()) (H := True) hm hb) hopen
  have hexact : clean ∨ (found v wal x).manifest.current.addr ≠
      (found v wal x).manifest.current.addr → Exact self.dir s'.disk v := by
    rintro (hc | hne)
    · exact (hclean hc).congr hsame
    · exact absurd rfl hne
  refine ⟨ht', ⟨⟨hhas.congr hsame, hexact, fun a ha id hid => ?_, Nat.zero_lt_one⟩, ?_, ?_⟩⟩
  · obtain rfl := List.mem_singleton.mp ha
    exact hid
  · obtain ⟨pre, a, c, htip, -⟩ := hlog
    exact ⟨a, htip.writes.path⟩
  · obtain ⟨rs, hrs⟩ := exists_records (isRecord_of_replayRecords hx)
    rw [replayRecords_eq _ _ hrs] at hx
    obtain rfl := Except.ok.inj hx
    exact fun t ht => absurd ht List.not_mem_nil

/-- **Garbage collection leaves no garbage where no tier is full**: in a run whose
flushes all find room, the table files are those of the current version at any time, if
they were when the directory was opened, or from the first table on that is flushed. -/
theorem gc_leaves_no_garbage {s s₁ s₂ : SimFs} {v : Version} {bufs : List (Wal.SegName × Bytes)}
    {db₁ db₂ : Db} (ht : s.Tidy) (hm : Loads self.dir s.disk v)
    (hb : Wal.Buffers self.dir s.disk bufs) (hhas : Has self.dir s.disk v)
    (hopen : s.exec (openOn self) () = some (.ok db₁, s₁, ()))
    (hrun : Relation.ReflTransGen (CalmStep self) (s₁, db₁) (s₂, db₂))
    (hclean : Exact self.dir s.disk v ∨ db₂.manifest.current.addr ≠ db₁.manifest.current.addr) :
    Exact self.dir s₂.disk db₂.manifest.current.val := by
  have hinv : ∀ y, Relation.ReflTransGen (CalmStep self) (s₁, db₁) y → y.1.Tidy ∧
      Collected (Exact self.dir s.disk v) db₁.manifest.current.addr self y.1.disk y.2 := by
    intro y hy
    induction hy with
    | refl => exact collected_open ht hm hb hhas id hopen
    | tail _ hstep ih => exact hstep.collected ih.1 ih.2
  exact (hinv _ hrun).2.nested.exact hclean

end Runs

/-- Which of the first tables have a file, which the version refers to, and the holds
on versions. -/
def census (self : Config) (x : SimFs × Db) : List Bool × List Nat × List Nat :=
  ([1, 2, 3].map fun id => (x.1.disk (tablePath self.dir id)).live.isSome,
    x.2.manifest.current.val.referencedIds, x.2.manifest.held)

/-- Two tables make a tier full. -/
def pairConfig : Config := ⟨[100], ⟨.always, 1024, 2⟩, 2⟩

/-- **A compaction leaves its inputs behind**: after the second flush of a new database
the version has table 3 only, nobody holds an older one, and tables 1 and 2 are there. -/
theorem compaction_leaves_inputs : letI := TableHashing.emptyKey
    ∃ fs db, ∃ x y : SimFs × Db, (SimFs.new fun _ => 0).exec (openOn pairConfig) () = some (.ok db, fs, ()) ∧
      Relation.ReflTransGen (fun x y => ∃ c, Step pairConfig c x y) (fs, db) x ∧
      x.1.exec (flush pairConfig) x.2 = some (.ok (), y.1, y.2) ∧ y.2.manifest.held = [] ∧
      ¬ Exact pairConfig.dir y.1.disk y.2.manifest.current.val := by
  let _ := TableHashing.emptyKey
  have hend : (afterOpen pairConfig [.put [] [], .flush, .put [] [], .flush]).map
      (census pairConfig) = some ([true, true, true], [3], []) := by decide +kernel
  obtain ⟨y, hy, hcensus⟩ := Option.map_eq_some_iff.mp hend
  obtain ⟨fs, db, hopen, hall⟩ := open_of_openThen hy
  have hsplit : runAll pairConfig ([.put [] [], .flush, .put [] []] ++ [.flush]) (fs, db) =
      some y := hall
  obtain ⟨x, hx, hflush⟩ := runAll_concat hsplit
  obtain ⟨hlive, hrest⟩ := Prod.mk.inj hcensus
  obtain ⟨hids, hheld⟩ := Prod.mk.inj hrest
  refine ⟨fs, db, x, y, hopen, steps_of_runAll hx, hflush, hheld, fun hexact => ?_⟩
  obtain ⟨id, hid, he⟩ := (hexact (tablePath pairConfig.dir 1) rfl trivial).mp (List.cons.inj hlive).1
  rw [hids] at hid
  obtain rfl := List.mem_singleton.mp hid
  cases he

/-- A log, a table that the manifest knows, and two that it does not. -/
def cluttered [TableHashing] : SimFs :=
  let tables := [(1, [([1], ⟨1, .value [10]⟩), ([2], ⟨2, .value [20]⟩)]),
    (6, [([2], ⟨2, .tombstone⟩)]), (7, [])]
  tables.foldl (fun s x => s.place (tablePath demoConfig.dir x.1)
      (tableBytes (writeSize x.2.length) (tableEntries x.2)))
    (directory demoConfig.dir ⟨[[⟨1, 2, [1], [2]⟩]], 3, 2⟩
      [(4, Wal.frames (putAndDelete.map Logged.encode))])

/-- Whether the flush of these memtables finds no full tier. -/
def quietly (self : Config) (x : SimFs × Db) : Bool :=
  let v := x.2.manifest.current.val
  decide (∀ t < v.numTiers + 1, v.tierLen t +
    (if t = 0 then (freezeActive x.2.memtables).frozen.length else 0) < self.options.tierFanout)

theorem calmStep_flush {self : Config} [TableHashing] {x y : SimFs × Db} {r : Except DbError Unit}
    (h : x.1.exec (flush self) x.2 = some (r, y.1, y.2)) (hq : quietly self x = true) :
    CalmStep self x y := by
  refine ⟨some .flush, .command (c := .flush) h, fun c hc s hs => ?_⟩
  obtain rfl := Option.some.inj hc
  obtain rfl := Option.some.inj hs
  exact quiet_of_lt (of_decide_eq_true hq)

/-- The first flush deletes the tables that the manifest does not know. -/
theorem gc_leaves_no_garbage_demo : letI := TableHashing.emptyKey
    ∃ fs db, ∃ y : SimFs × Db, cluttered.exec (openOn demoConfig) () = some (.ok db, fs, ()) ∧
      Relation.ReflTransGen (CalmStep demoConfig) (fs, db) y ∧
      y.2.manifest.current.val.referencedIds = [1, 2] ∧
      Exact demoConfig.dir y.1.disk y.2.manifest.current.val := by
  let _ := TableHashing.emptyKey
  have hs : cluttered.Tidy := SimFs.place_tidy (SimFs.place_tidy (SimFs.place_tidy
    (directory_tidy ..) ..) ..) ..
  have hmanifest : cluttered.contents (manifestPath demoConfig.dir) =
      some (encodeVersion ⟨[[⟨1, 2, [1], [2]⟩]], 3, 2⟩) := by decide +kernel
  have hloads : Loads demoConfig.dir cluttered.disk ⟨[[⟨1, 2, [1], [2]⟩]], 3, 2⟩ := by
    refine loads_of_contents hs hmanifest (decodeVersion_encodeVersion ?_ ?_)
    · exact ⟨by decide, by decide, by decide⟩
    · exact ⟨by decide, by decide, by decide⟩
  have hfiles : (cluttered.paths.filter fun p =>
      (cluttered.files p).liveInode.isSome && p.dir == demoConfig.dir) =
      [tablePath demoConfig.dir 1, Wal.segmentPath demoConfig.dir 4, tablePath demoConfig.dir 6,
        tablePath demoConfig.dir 7, manifestPath demoConfig.dir] := by decide +kernel
  have hlists := SimFs.lists_refines hs demoConfig.dir
  rw [hfiles] at hlists
  have hhas : Has demoConfig.dir cluttered.disk ⟨[[⟨1, 2, [1], [2]⟩]], 3, 2⟩ := by
    refine ⟨fun id hid => ?_, fun p hdir hp hl => ?_⟩
    · obtain rfl := List.mem_singleton.mp hid
      exact ((hlists.2 _).mp (by simp)).2
    · have hmem := (hlists.2 p).mpr ⟨hdir, hl⟩
      simp only [List.mem_cons, List.not_mem_nil, or_false] at hmem
      rcases hmem with rfl | rfl | rfl | rfl | rfl
      · exact ⟨1, rfl, Or.inl (by decide)⟩
      · exact hp.elim
      · exact ⟨6, rfl, Or.inl (by decide)⟩
      · exact ⟨7, rfl, Or.inl (by decide)⟩
      · exact hp.elim
  -- the run, and what its end has
  have hend : (openThen demoConfig cluttered [.flush]).map (fun y =>
      (y.2.manifest.current.val.referencedIds, y.2.manifest.current.addr)) = some ([1, 2], 1) := by
    decide +kernel
  have hstart : (openThen demoConfig cluttered []).map (fun x =>
      (quietly demoConfig x, x.2.manifest.current.addr)) = some (true, 0) := by decide +kernel
  obtain ⟨y, hy, hids⟩ := Option.map_eq_some_iff.mp hend
  obtain ⟨fs, db, hopen, hall⟩ := open_of_openThen hy
  obtain ⟨y', hflush, hnil⟩ := exec_of_runAll hall
  obtain rfl : y' = y := Option.some.inj hnil
  rw [openThen_eq hopen] at hstart
  obtain ⟨hquiet, haddr⟩ := Prod.mk.inj (Option.some.inj hstart)
  have hrun : Relation.ReflTransGen (CalmStep demoConfig) (fs, db) y' :=
    .single (calmStep_flush hflush hquiet)
  have hswitched : y'.2.manifest.current.addr ≠ db.manifest.current.addr := by
    rw [(Prod.mk.inj hids).2, haddr]
    exact Nat.one_ne_zero
  exact ⟨fs, db, y', hopen, hrun, (Prod.mk.inj hids).1, gc_leaves_no_garbage hs hloads
    (Wal.buffers_segments hs demoConfig.dir) hhas hopen hrun (Or.inr hswitched)⟩

end AccretionDb.Db
