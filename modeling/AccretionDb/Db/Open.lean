import AccretionDb.Db.Engine
import AccretionDb.Wal.Reopen

/-! # Opening a database

What `openOn` makes of a directory that holds a manifest it can read, or none, and
segments with any bytes in them.  The log is read up to its first damage.  Behind the
last record there may be anything: what is not a frame is cut off, but a payload that
frames well and is not a record makes `openOn` fail (`open_damaged_tail_iff`).
-/

namespace AccretionDb

open CrashLogic

/-! ### Replaying the records -/

namespace Memtable

/-- What a table holds only gives way to later versions. -/
theorem older_insertIfNewer {t : Memtable} {k : Bytes} {u : InternalValue} (key : Bytes)
    (val : InternalValue) (h : t.versions k = some u) :
    ∃ u', (t.insertIfNewer key val).versions k = some u' ∧ Older u u' := by
  by_cases hle : ∃ prev, t.versions key = some prev ∧ val.seq ≤ prev.seq
  · obtain ⟨prev, hprev, hle⟩ := hle
    rw [insertIfNewer_of_le hprev hle]
    exact ⟨u, h, .refl u⟩
  · have hlt : ∀ prev, t.versions key = some prev → prev.seq < val.seq := fun prev hprev =>
      Nat.lt_of_not_le fun hle' => hle ⟨prev, hprev, hle'⟩
    rw [versions_insertIfNewer hlt]
    by_cases hk : k = key
    · subst hk
      rw [Function.update_self]
      exact ⟨val, rfl, Or.inl (hlt u h)⟩
    · rw [Function.update_of_ne hk]
      exact ⟨u, h, .refl u⟩

theorem older_foldl (es : List Entry) {k : Bytes} : ∀ {t : Memtable} {u : InternalValue},
    t.versions k = some u →
      ∃ u', (es.foldl (fun t e => t.insertIfNewer e.1 e.2) t).versions k = some u' ∧ Older u u' := by
  induction es with
  | nil => exact fun {t u} h => ⟨u, h, .refl u⟩
  | cons e es ih =>
    intro t u h
    obtain ⟨u₁, h₁, hold⟩ := older_insertIfNewer e.1 e.2 h
    obtain ⟨u₂, h₂, hold'⟩ := ih h₁
    exact ⟨u₂, h₂, hold.trans hold'⟩

/-- A value that was offered is there, unless one as late is. -/
theorem exists_insertIfNewer (t : Memtable) (key : Bytes) (val : InternalValue) :
    ∃ u, (t.insertIfNewer key val).versions key = some u ∧ val.seq ≤ u.seq := by
  by_cases hle : ∃ prev, t.versions key = some prev ∧ val.seq ≤ prev.seq
  · obtain ⟨prev, hprev, hle⟩ := hle
    rw [insertIfNewer_of_le hprev hle]
    exact ⟨prev, hprev, hle⟩
  · have hlt : ∀ prev, t.versions key = some prev → prev.seq < val.seq := fun prev hprev =>
      Nat.lt_of_not_le fun hle' => hle ⟨prev, hprev, hle'⟩
    rw [versions_insertIfNewer hlt, Function.update_self]
    exact ⟨val, rfl, Nat.le_refl _⟩

/-- What is there was there before, or was offered. -/
theorem of_insertIfNewer {t : Memtable} {k key : Bytes} {u val : InternalValue}
    (h : (t.insertIfNewer key val).versions k = some u) :
    t.versions k = some u ∨ (k, u) = (key, val) := by
  by_cases hle : ∃ prev, t.versions key = some prev ∧ val.seq ≤ prev.seq
  · obtain ⟨prev, hprev, hle⟩ := hle
    rw [insertIfNewer_of_le hprev hle] at h
    exact Or.inl h
  · have hlt : ∀ prev, t.versions key = some prev → prev.seq < val.seq := fun prev hprev =>
      Nat.lt_of_not_le fun hle' => hle ⟨prev, hprev, hle'⟩
    rw [versions_insertIfNewer hlt] at h
    by_cases hk : k = key
    · subst hk
      rw [Function.update_self] at h
      exact Or.inr (by rw [Option.some.inj h])
    · rw [Function.update_of_ne hk] at h
      exact Or.inl h

theorem of_foldl {es : List Entry} {k : Bytes} {u : InternalValue} : ∀ {t : Memtable},
    (es.foldl (fun t e => t.insertIfNewer e.1 e.2) t).versions k = some u →
      t.versions k = some u ∨ (k, u) ∈ es := by
  induction es with
  | nil => exact fun h => Or.inl h
  | cons e es ih =>
    intro t h
    rcases ih h with h | h
    · rcases of_insertIfNewer h with h | h
      · exact Or.inl h
      · exact Or.inr (h ▸ List.mem_cons_self)
    · exact Or.inr (List.mem_cons_of_mem _ h)

theorem exists_foldl {es : List Entry} {e : Entry} : ∀ {t : Memtable}, e ∈ es →
    ∃ u, (es.foldl (fun t e => t.insertIfNewer e.1 e.2) t).versions e.1 = some u ∧
      e.2.seq ≤ u.seq := by
  induction es with
  | nil => exact fun h => absurd h List.not_mem_nil
  | cons e' es ih =>
    intro t h
    rcases List.mem_cons.mp h with rfl | h
    · obtain ⟨u, hu, hle⟩ := exists_insertIfNewer t e.1 e.2
      obtain ⟨u', hu', hold⟩ := older_foldl es hu
      exact ⟨u', hu', Nat.le_trans hle hold.stamp_le⟩
    · exact ih h

end Memtable

/-- The payload is a record. -/
def IsRecord (p : Bytes) : Prop := ∃ r, decodeRecord p = .ok r

def Record.entry (r : Record) : Entry := (r.key, r.value)

theorem exists_records {ps : List Bytes} (h : ∀ p ∈ ps, IsRecord p) :
    ∃ rs : List Record, ps.map decodeRecord = rs.map Except.ok := by
  induction ps with
  | nil => exact ⟨[], rfl⟩
  | cons p ps ih =>
    obtain ⟨r, hr⟩ := h p List.mem_cons_self
    obtain ⟨rs, hrs⟩ := ih fun q hq => h q (List.mem_cons_of_mem p hq)
    exact ⟨r :: rs, by rw [List.map_cons, List.map_cons, hr, hrs]⟩

namespace Db

/-- **The replay loop** offers the records to the active table one by one. -/
theorem replayRecords_eq : ∀ {ps : List Bytes} {rs : List Record} (s : MemtableSet) (n : Nat),
    ps.map decodeRecord = rs.map Except.ok → replayRecords ps (s, n) =
      .ok ({ s with active :=
          (rs.map Record.entry).foldl (fun t e => t.insertIfNewer e.1 e.2) s.active },
        rs.foldl (fun n r => max n ((r.seq + 1) % 2 ^ 64)) n) := by
  intro ps
  induction ps with
  | nil =>
    intro rs s n h
    obtain rfl : rs = [] := List.map_eq_nil_iff.mp h.symm
    rfl
  | cons p ps ih =>
    intro rs s n h
    cases rs with
    | nil => cases h
    | cons r rs =>
      obtain ⟨hp, hps⟩ := List.cons.inj h
      rw [replayRecords, hp]
      exact ih (s.insertIfNewer r.key r.value) (max n ((r.seq + 1) % 2 ^ 64)) hps

/-- The loop ends well only if every payload is a record. -/
theorem isRecord_of_replayRecords : ∀ {ps : List Bytes} {x y : MemtableSet × Nat},
    replayRecords ps x = .ok y → ∀ p ∈ ps, IsRecord p := by
  intro ps
  induction ps with
  | nil => exact fun _ _ hp => absurd hp List.not_mem_nil
  | cons p ps ih =>
    intro x y h q hq
    rw [replayRecords] at h
    cases hr : decodeRecord p with
    | error err =>
      rw [hr] at h
      cases h
    | ok r =>
      rw [hr] at h
      rcases List.mem_cons.mp hq with rfl | hq
      · exact ⟨r, hr⟩
      · exact ih h q hq

/-! ### What the program does -/

/-- The manifest of the directory is this version; where there is none it is the empty
one. -/
def Loads [Hashing] (dir : Dir) (d : Disk) (v : Version) : Prop :=
  (∃ b, (d (manifestPath dir)).live = some b ∧ decodeVersion b.content = .ok v) ∨
    ((d (manifestPath dir)).live = none ∧ v = .empty)

/-- The handle on what was found. -/
def found (v : Version) (wal : Wal.State) (x : MemtableSet × Nat) : Db :=
  ⟨wal, x.1, .start v, fun _ => none, ⟨x.2, 0, false⟩⟩

/-- The log was opened on these segments. -/
def LogAt [Hashing] (dir : Dir) (d : Disk) (wal : Wal.State) (bufs : List (Wal.SegName × Bytes)) :
    Prop :=
  ∃ pre a c, Wal.Tip dir d wal pre a c ∧ Wal.Leaves bufs (pre ++ [(.plain a, c)])

/-- A name that ends in `.sst`. -/
def IsTableFile (p : Path) : Prop :=
  match p.name with
  | .sst _ => True
  | .other name => [46, 115, 115, 116] <:+ name
  | _ => False

/-- The two disks have the same tables. -/
def SameTables (d d' : Disk) : Prop := ∀ p, IsTableFile p → (d' p).live = (d p).live

theorem SameTables.refl (d : Disk) : SameTables d d := fun _ _ => rfl

theorem SameTables.trans {d₁ d₂ d₃ : Disk} (h : SameTables d₁ d₂) (h' : SameTables d₂ d₃) :
    SameTables d₁ d₃ := fun p hp => (h' p hp).trans (h p hp)

theorem SameTables.update {d d' : Disk} (h : SameTables d d') {p : Path} (hp : ¬ IsTableFile p)
    (s : Slot) : SameTables d (Function.update d' p s) := by
  intro q hq
  have hne : q ≠ p := fun he => hp (he ▸ hq)
  rw [Function.update_of_ne hne]
  exact h q hq

theorem SameTables.commit {d d' : Disk} (h : SameTables d d') (dir : Dir) :
    SameTables d (d'.commit dir) := fun p hp => (Disk.live_commit d' dir p).trans (h p hp)

/-- The log leaves the tables alone. -/
theorem SameTables.beside (d : Disk) (dir : Dir) : Wal.Beside dir (SameTables d) where
  update d' p s hp h := by
    obtain ⟨id, rfl | rfl⟩ := hp
    · exact h.update (p := Wal.segmentPath dir id) not_false s
    · exact h.update (p := Wal.tmpPath dir id) not_false s
  commit _ h := h.commit dir

section Programs

variable [TableHashing] {self : Config}

/-- A new manifest leaves the tables alone. -/
theorem sameTables_written (d : Disk) (dir : Dir) (v : Version) :
    SameTables d (Manifest.written d dir v) := by
  have hput : SameTables d (d.put (manifestPath dir) ⟨encodeVersion v, []⟩) :=
    (SameTables.refl d).update (p := manifestPath dir) not_false _
  exact (hput.update (p := manifestTmpPath dir) not_false _).commit dir

theorem written_segment {d : Disk} {dir : Dir} {v : Version} (n : Wal.SegName) :
    (Manifest.written d dir v (n.path dir)).live = (d (n.path dir)).live := by
  have htmp := segment_ne_manifestTmp dir n
  have hmanifest := segment_ne_manifest dir n
  rw [Manifest.written, Disk.live_commit, Manifest.switched, Function.update_of_ne htmp,
    Disk.put_of_ne hmanifest]

/-- The manifest is read, or a new one is written. -/
theorem wpE_openManifest {M : Type} {m : M} {H : Prop} {dir : Dir} {d : Disk} {v : Version}
    {bufs : List (Wal.SegName × Bytes)} (hm : Loads dir d v) (hb : Wal.Buffers dir d bufs) :
    wpE (Disk.sem Faults.none) False H (fun _ : Disk × M => True) (Manifest.open dir)
      (fun manifest σ => manifest = .start v ∧ Wal.Buffers dir σ.1 bufs ∧ SameTables d σ.1)
      (fun _ _ => False) (d, m) := by
  rcases hm with ⟨b, hlive, hv⟩ | ⟨hno, rfl⟩
  · exact Manifest.wpE_open_some hlive hv trivial ⟨rfl, hb, .refl d⟩
  · exact Manifest.wpE_open_none hno (fun _ => trivial) (fun _ => trivial) trivial
      ⟨rfl, hb.congr written_segment, sameTables_written d dir .empty⟩

/-- **Opening** reads the manifest and the log, and replays the records. -/
theorem wpE_openOn {M : Type} {m : M} {H : Prop} {d : Disk} {v : Version}
    {bufs : List (Wal.SegName × Bytes)} (hm : Loads self.dir d v) (hb : Wal.Buffers self.dir d bufs) :
    wpE (Disk.sem Faults.none) False H (fun _ : Disk × M => True) (openOn self)
      (fun db σ => ∃ wal x, Wal.Adoptable bufs ∧
        replayRecords (Wal.replay (Wal.byId bufs) .default).records
          (.new self.options.memtableSize, v.nextSeq) = .ok x ∧ db = found v wal x ∧
        LogAt self.dir σ.1 wal bufs ∧ SameTables d σ.1)
      (fun err _ => Wal.Adoptable bufs →
        replayRecords (Wal.replay (Wal.byId bufs) .default).records
          (.new self.options.memtableSize, v.nextSeq) = .error err) (d, m) := by
  refine wpE_bind.mpr (wpE_mapError (wpE_post (wpE_openManifest hm hb)
    (fun manifest σ _ hq => ?_) fun _ _ _ hf => hf.elim))
  obtain ⟨d', m'⟩ := σ
  obtain ⟨rfl, hb', hsame⟩ := hq
  refine wpE_bind.mpr (wpE_mapError (wpE_post (Wal.wpE_open_any hb'
    (SameTables.beside d self.dir) hsame) (fun x σ _ hx => ?_) fun _ _ _ hno hadopt =>
      absurd hadopt hno))
  obtain ⟨wal, recovered⟩ := x
  obtain ⟨hrec, -, hadopt, hlog, -, hsame'⟩ := hx
  change recovered = _ at hrec
  subst hrec
  refine wpE_bind.mpr (wpE_ofExcept.mpr ⟨trivial, ?_⟩)
  change outcome _ _ (replayRecords _ (_, v.nextSeq)) _
  cases hr : replayRecords (Wal.replay (Wal.byId bufs) .default).records
    (.new self.options.memtableSize, v.nextSeq) with
  | error err => exact fun _ => rfl
  | ok x => exact wpE_pure.mpr ⟨trivial, wal, x, hadopt, rfl, rfl, hlog, hsame'⟩

/-- **A new directory** is opened with an empty memtable, at sequence number one. -/
theorem exists_open_new (self : Config) (rng : Nat → Nat) : ∃ fs wal,
    (SimFs.new rng).exec (openOn self) () =
      some (.ok (found .empty wal (.new self.options.memtableSize, 1)), fs, ()) ∧
    fs.Tidy ∧ Wal.Tip self.dir fs.disk wal [] 1 [] ∧ SameTables (SimFs.new rng).disk fs.disk := by
  have ht := SimFs.new_tidy rng
  have hb : Wal.Buffers self.dir (SimFs.new rng).disk [] := .of_none fun _ => rfl
  have hspec := @wpE_openOn _ self _ () False _ _ _ (Or.inr ⟨rfl, rfl⟩) hb
  obtain ⟨res, fs, _, hopen⟩ := SimFs.exec_total ht hspec
  obtain ⟨ht', -, hpost⟩ := SimFs.exec_spec ht hspec hopen
  cases res with
  | error err => cases hpost .nil
  | ok db =>
    obtain ⟨wal, x, -, hx, rfl, ⟨pre, a, c, htip, hleaves⟩, hsame⟩ := hpost
    obtain rfl := Except.ok.inj hx
    obtain ⟨rfl, hone⟩ := List.append_inj' (hleaves.of_nil (by simp)) rfl
    cases hone
    exact ⟨fs, wal, hopen, ht', htip, hsame⟩

end Programs

/-- The defaults, but for a small memtable. -/
def demoConfig : Config := ⟨[100], ⟨.always, 1024, 4⟩, 1⟩

end Db

end AccretionDb
