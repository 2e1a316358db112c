import AccretionDb.Db.Crash
import AccretionDb.Db.Run
import AccretionDb.Wal.Retry

/-! # Opening after a failed opening

A storage call that fails while a database is opened costs nothing but the attempt:
what was done is done again or does no harm, and the next opening finds the same
database.  The exception is the call that looks for the manifest.  Any error of it counts
as its absence, and an empty manifest takes the place of the one that is there
(`open_failure_atomic_iff`).  What this needs of the directory is little, and runs and
power losses leave it (`LeftBy.orderly`).
-/

namespace AccretionDb.Db

open CrashLogic

section Programs

variable [TableHashing] {self : Config} {M : Type} {m : M} {e : Faults} {H : Prop} {d : Disk}
variable {v : Version} {V : Set Version} {bufs : List (Wal.SegName × Bytes)}

/-- The same tables, and a manifest of one of these versions. -/
structure Beside (cfg : Config) (V : Set Version) (d d' : Disk) : Prop where
  loads : ∃ v ∈ V, Loads cfg.dir d' v
  tables : SameTables d d'

theorem Beside.congr {d' d'' : Disk} (h : Beside self V d d')
    (hm : (d'' (manifestPath self.dir)).live = (d' (manifestPath self.dir)).live)
    (hs : SameTables d' d'') : Beside self V d d'' := by
  obtain ⟨v, hv, hl⟩ := h.loads
  refine ⟨⟨v, hv, ?_⟩, h.tables.trans hs⟩
  rw [Loads, hm]
  exact hl

theorem Beside.log (self : Config) (V : Set Version) (d : Disk) :
    Wal.Beside self.dir (Beside self V d) where
  update d' p s hp h := by
    have hs := (SameTables.beside d' self.dir).update d' p s hp (.refl d')
    obtain ⟨id, rfl | rfl⟩ := hp
    · have hne : manifestPath self.dir ≠ Wal.segmentPath self.dir id := nofun
      exact h.congr (by rw [Function.update_of_ne hne]) hs
    · have hne : manifestPath self.dir ≠ Wal.tmpPath self.dir id := nofun
      exact h.congr (by rw [Function.update_of_ne hne]) hs
  commit d' h := h.congr (Disk.live_commit ..) ((SameTables.refl d').commit _)

/-- An empty manifest that has its name. -/
theorem loads_switched (d : Disk) (dir : Dir) (s : Slot) :
    Loads dir (Manifest.switched d dir .empty s) .empty := by
  refine Or.inl ⟨⟨encodeVersion .empty, []⟩, ?_, ?_⟩
  · rw [Manifest.switched, Function.update_of_ne Manifest.manifest_ne_tmp, Disk.live_put]
  · rw [Blob.content_mk, List.append_nil]
    exact decodeVersion_encodeVersion Version.words_empty Version.lengthsFit_empty

omit [TableHashing] in
theorem writing_segment (d : Disk) (dir : Dir) (s : Slot) (n : Wal.SegName) :
    Manifest.writing d dir s (n.path dir) = d (n.path dir) := by
  rw [Manifest.writing, Function.update_of_ne (segment_ne_manifestTmp dir n)]

theorem switched_segment (d : Disk) (dir : Dir) (v : Version) (s : Slot) (n : Wal.SegName) :
    Manifest.switched d dir v s (n.path dir) = d (n.path dir) := by
  rw [Manifest.switched, Function.update_of_ne (segment_ne_manifestTmp dir n),
    Disk.put_of_ne (segment_ne_manifest dir n)]

/-- An empty manifest is written. -/
theorem wpE_writeManifest_left (hm : Loads self.dir d v) (hv : v ∈ V) (hempty : .empty ∈ V)
    (hb : Wal.Buffers self.dir d bufs) :
    wpE (Disk.sem e) False H (fun _ => True) (Manifest.writeManifest self.dir .empty)
      (fun _ σ => Wal.Buffers self.dir σ.1 bufs ∧ Beside self V d σ.1)
      (fun _ σ => Wal.Buffers self.dir σ.1 bufs ∧ Beside self V d σ.1) (d, m) := by
  have hself : Beside self V d d := ⟨⟨v, hv, hm⟩, .refl d⟩
  have hwriting : ∀ s, Beside self V d (Manifest.writing d self.dir s) := fun s =>
    hself.congr (by rw [Manifest.writing, Function.update_of_ne Manifest.manifest_ne_tmp])
      ((SameTables.refl d).update (p := manifestTmpPath self.dir) not_false s)
  have hswitched : ∀ s, Beside self V d (Manifest.switched d self.dir .empty s) := by
    have hput : SameTables d (d.put (manifestPath self.dir) ⟨encodeVersion .empty, []⟩) :=
      (SameTables.refl d).update (p := manifestPath self.dir) not_false _
    exact fun s => ⟨⟨.empty, hempty, loads_switched d self.dir s⟩,
      hput.update (p := manifestTmpPath self.dir) not_false s⟩
  have hsegs : ∀ s, Wal.Buffers self.dir (Manifest.switched d self.dir .empty s) bufs :=
    fun s => hb.congr fun n => by rw [switched_segment]
  refine Manifest.wpE_writeManifest (fun _ => trivial) (fun _ _ => trivial) (fun _ => trivial)
    (fun _ => ⟨(hsegs _).commit, (Beside.log self V d).commit _ (hswitched _)⟩)
    (fun _ _ s => ⟨hb.congr fun n => congrArg _ (writing_segment ..), hwriting s⟩)
    fun _ _ _ s => ⟨hsegs s, hswitched s⟩

/-- Reading the manifest changes nothing; where it is taken to be missing it is written. -/
theorem wpE_open_manifest_left (hm : Loads self.dir d v) (hv : v ∈ V)
    (hb : Wal.Buffers self.dir d bufs)
    (hlook : e.fail (.open (manifestPath self.dir)) →
      (d (manifestPath self.dir)).live.isSome → .empty ∈ V) :
    wpE (Disk.sem e) False H (fun _ => True) (Manifest.open self.dir)
      (fun _ σ => Wal.Buffers self.dir σ.1 bufs ∧ Beside self V d σ.1)
      (fun _ σ => Wal.Buffers self.dir σ.1 bufs ∧ Beside self V d σ.1) (d, m) := by
  have hself : Wal.Buffers self.dir d bufs ∧ Beside self V d d := ⟨hb, ⟨v, hv, hm⟩, .refl d⟩
  have hwrite : .empty ∈ V → wpE (Disk.sem e) False H (fun _ => True)
      (Manifest.writeManifest self.dir .empty >>= fun _ => pure (Manifest.start .empty))
      (fun _ σ => Wal.Buffers self.dir σ.1 bufs ∧ Beside self V d σ.1)
      (fun _ σ => Wal.Buffers self.dir σ.1 bufs ∧ Beside self V d σ.1) (d, m) := fun hempty =>
    wpE_bind.mpr (wpE_post (wpE_writeManifest_left hm hv hempty hb)
      (fun _ _ _ hq => wpE_pure.mpr ⟨trivial, hq⟩) fun _ _ _ hr => hr)
  have hmiss : (d (manifestPath self.dir)).live = none → .empty ∈ V := by
    intro hno
    rcases hm with ⟨b, hl, _⟩ | ⟨_, rfl⟩
    · rw [hno] at hl
      cases hl
    · exact hv
  refine wpE_bind.mpr (wpE_attempt (wpE_open trivial (fun hsome => ?_)
    (fun hno => hwrite (hmiss hno)) fun hf msg => hwrite ?_))
  · rcases hm with ⟨b, hl, hdec⟩ | ⟨hno, _⟩
    · refine wpE_bind.mpr (wpE_mapError (wpE_len trivial (fun b' hb' => ?_) (fun _ => hself)
        fun _ _ => hself))
      obtain rfl := Option.some.inj (hl.symm.trans hb')
      refine wpE_bind.mpr (wpE_mapError (wpE_readAt trivial hl (Nat.zero_le _) ?_
        fun _ _ => hself))
      refine wpE_bind.mpr (wpE_ofExcept.mpr ⟨trivial, ?_⟩)
      rw [slice_all, hdec]
      exact wpE_pure.mpr ⟨trivial, hself⟩
    · rw [hno] at hsome
      cases hsome
  · cases hl : (d (manifestPath self.dir)).live with
    | none => exact hmiss hl
    | some b => exact hlook hf (by rw [hl]; rfl)

/-- **An opening with calls that fail** leaves the tables as they are, of the log what it
has read, and the manifest unless it could not look for it. -/
theorem wpE_openOn_left (hm : Loads self.dir d v) (hv : v ∈ V) (hb : Wal.Buffers self.dir d bufs)
    (hplain : Wal.Plain bufs)
    (hlook : e.fail (.open (manifestPath self.dir)) →
      (d (manifestPath self.dir)).live.isSome → .empty ∈ V) :
    wpE (Disk.sem e) False H (fun _ => True) (openOn self)
      (fun _ σ => Wal.Left self.dir (Beside self V d) bufs σ.1)
      (fun _ σ => Wal.Left self.dir (Beside self V d) bufs σ.1) (d, m) := by
  refine wpE_bind.mpr (wpE_mapError (wpE_post (wpE_open_manifest_left hm hv hb hlook)
    (fun manifest σ _ hq => ?_) fun _ _ _ hr => ⟨⟨bufs, .same, hr.1⟩, hr.2⟩))
  obtain ⟨hb', hside⟩ := hq
  refine wpE_bind.mpr (wpE_mapError (wpE_post (Wal.wpE_open_left hb' hplain
    (Beside.log self V d) hside) (fun x σ _ hx => ?_) fun _ _ _ hr => hr))
  refine wpE_bind.mpr (wpE_ofExcept.mpr ⟨trivial, ?_⟩)
  cases replayRecords x.2.records (.new self.options.memtableSize, manifest.current.val.nextSeq) with
  | error err => exact hx
  | ok y => exact wpE_pure.mpr ⟨trivial, hx⟩

/-! ### Opening alike -/

/-- The same error, or handles with the same memtables, manifest and next sequence
number. -/
def SameResult : Except DbError Db → Except DbError Db → Prop
  | .ok db, .ok db' =>
    db'.memtables = db.memtables ∧ db'.manifest = db.manifest ∧ db'.write = db.write
  | .error err, .error err' => err' = err
  | _, _ => False

/-- Opening the two directories returns the same, over the same tables. -/
def OpensAlike (self : Config) (fs fs' : SimFs) : Prop :=
  ∃ r r' s s', fs.exec (openOn self) () = some (r, s, ()) ∧
    fs'.exec (openOn self) () = some (r', s', ()) ∧ SameResult r r' ∧ SameTables s.disk s'.disk

omit [TableHashing] in
/-- Which payload is no record does not depend on what was there before. -/
theorem replayRecords_error {err : DbError} : ∀ {ps : List Bytes} {x : MemtableSet × Nat}
    (y : MemtableSet × Nat), replayRecords ps x = .error err → replayRecords ps y = .error err := by
  intro ps
  induction ps with
  | nil => exact fun _ h => nomatch h
  | cons p ps ih =>
    intro x y h
    rw [replayRecords] at h ⊢
    cases hr : decodeRecord p with
    | error err' =>
      rw [hr] at h
      exact h
    | ok r =>
      rw [hr] at h
      exact ih _ h

omit [TableHashing] in
/-- The replay fails exactly if a payload is no record. -/
theorem replayRecords_error_iff {ps : List Bytes} {x : MemtableSet × Nat} :
    (∃ err, replayRecords ps x = .error err) ↔ ∃ p ∈ ps, ¬ IsRecord p := by
  constructor
  · rintro ⟨err, h⟩
    by_contra hno
    push Not at hno
    obtain ⟨rs, hrs⟩ := exists_records hno
    rw [replayRecords_eq x.1 x.2 hrs] at h
    cases h
  · rintro ⟨p, hp, hno⟩
    cases h : replayRecords ps x with
    | error err => exact ⟨err, rfl⟩
    | ok y => exact absurd (isRecord_of_replayRecords h p hp) hno

/-- A healthy opening returns what the replay of the log returns. -/
theorem exists_open {fs : SimFs} (ht : fs.Tidy) (hm : Loads self.dir fs.disk v)
    (hb : Wal.Buffers self.dir fs.disk bufs) (hplain : Wal.Plain bufs) :
    ∃ r s, fs.exec (openOn self) () = some (r, s, ()) ∧ SameTables fs.disk s.disk ∧
      match replayRecords (Wal.replay (Wal.byId bufs) .default).records
        (.new self.options.memtableSize, v.nextSeq) with
      | .ok x => ∃ wal, r = .ok (found v wal x)
      | .error err => r = .error err := by
  have hspec := wpE_openOn (m := ()) (H := False) hm hb
  obtain ⟨r, s, _, hopen⟩ := SimFs.exec_total ht hspec
  obtain ⟨hs, -, hpost⟩ := SimFs.exec_spec ht hspec hopen
  have hsame : SameTables fs.disk s.disk := by
    obtain ⟨-, -, hleft⟩ := SimFs.exec_spec ht (wpE_openOn_left (V := {v}) (e := .none) (m := ())
      (H := False) hm rfl hb hplain fun hf => hf.elim) hopen
    cases r with
    | ok _ => exact hleft.2.tables
    | error _ => exact hleft.2.tables
  refine ⟨r, s, hopen, hsame, ?_⟩
  cases r with
  | ok db =>
    obtain ⟨wal, x, -, hx, rfl, -⟩ := hpost
    rw [hx]
    exact ⟨wal, rfl⟩
  | error err =>
    rw [hpost hplain.adoptable]

/-- The same records and tables open alike if the manifest is the same, or if a payload is
no record. -/
theorem opensAlike_of_left {fs fs' : SimFs} (ht : fs.Tidy) (ht' : fs'.Tidy)
    (hm : Loads self.dir fs.disk v) (hb : Wal.Buffers self.dir fs.disk bufs)
    (hplain : Wal.Plain bufs) (hbehind : ∀ s ∈ Wal.afterStop bufs, s.2 = [])
    (hleft : Wal.Left self.dir (Beside self V fs.disk) bufs fs'.disk)
    (hV : V = {v} ∨ ∃ p ∈ (Wal.replay (Wal.byId bufs) .default).records, ¬ IsRecord p) :
    OpensAlike self fs fs' := by
  obtain ⟨⟨bufs', htidied, hb'⟩, ⟨v', hv', hm'⟩, htables⟩ := hleft
  have hsame := (htidied.records hbehind).1
  obtain ⟨r, s, hopen, hs, hr⟩ := exists_open ht hm hb hplain
  obtain ⟨r', s', hopen', hs', hr'⟩ := exists_open ht' hm' hb' (htidied.plain hplain)
  refine ⟨r, r', s, s', hopen, hopen', ?_, fun p hp => ?_⟩
  · rw [hsame] at hr'
    rcases hV with rfl | hno
    · obtain rfl := Set.mem_singleton_iff.mp hv'
      cases hx : replayRecords (Wal.replay (Wal.byId bufs) .default).records
          (.new self.options.memtableSize, v'.nextSeq) with
      | error err =>
        rw [hx] at hr hr'
        rw [hr, hr']
        rfl
      | ok x =>
        rw [hx] at hr hr'
        obtain ⟨wal, rfl⟩ := hr
        obtain ⟨wal', rfl⟩ := hr'
        exact ⟨rfl, rfl, rfl⟩
    · obtain ⟨err, hx⟩ := replayRecords_error_iff.mpr hno
      have hx' := replayRecords_error (.new self.options.memtableSize, v'.nextSeq) hx
      rw [hx] at hr
      rw [hx'] at hr'
      rw [hr, hr']
      rfl
  · rw [hs' p hp, htables p hp, hs p hp]

/-! ### The manifest that cannot be looked for -/

/-- What `open_on` does once the manifest is taken to be missing. -/
def openMissing (self : Config) : Io M DbError Db := do
  let manifest ← (do
    Manifest.writeManifest self.dir .empty
    pure (Manifest.start .empty)).mapError .manifest
  let (wal, recovered) ← (Wal.open self.wal).mapError .storage
  let (memtables, nextSeq) ← Act.ofExcept
    (replayRecords recovered.records (.new self.options.memtableSize, manifest.current.val.nextSeq))
  pure ⟨wal, memtables, manifest, fun _ => none, ⟨nextSeq, 0, false⟩⟩

/-- It leaves an empty manifest. -/
theorem wpE_openMissing (hb : Wal.Buffers self.dir d bufs) (hplain : Wal.Plain bufs) :
    wpE (Disk.sem Faults.none) False False (fun _ => True) (openMissing self)
      (fun _ σ => Loads self.dir σ.1 .empty) (fun _ σ => Loads self.dir σ.1 .empty) (d, m) := by
  have hno : ∀ {P : Prop}, Faults.none.Any → P := fun ha => absurd ha Faults.not_any_none
  let d₁ := (Manifest.switched d self.dir .empty .absent).commit self.dir
  have hnew : Beside self {Version.empty} d₁ d₁ := by
    refine ⟨⟨.empty, rfl, ?_⟩, .refl _⟩
    have hl := loads_switched d self.dir .absent
    rwa [Loads, ← Disk.live_commit _ self.dir] at hl
  have hloads : ∀ {d₂ : Disk}, Wal.Left self.dir (Beside self {Version.empty} d₁) bufs d₂ →
      Loads self.dir d₂ .empty := by
    rintro d₂ ⟨-, ⟨v, hv, hl⟩, -⟩
    rwa [Set.mem_singleton_iff.mp hv] at hl
  have hb' : Wal.Buffers self.dir d₁ bufs :=
    Wal.Buffers.commit (hb.congr fun n => by rw [switched_segment])
  refine wpE_bind.mpr (wpE_mapError (wpE_bind.mpr (Manifest.wpE_writeManifest (fun _ => trivial)
    (fun _ _ => trivial) (fun _ => trivial) (fun _ => wpE_pure.mpr ⟨trivial, ?_⟩)
    (fun ha => hno ha) fun _ ha => hno ha)))
  refine wpE_bind.mpr (wpE_mapError (wpE_post (Wal.wpE_open_left hb' hplain
    (Beside.log self {Version.empty} d₁) hnew) (fun x σ _ hx => ?_) fun _ _ _ hr => hloads hr))
  refine wpE_bind.mpr (wpE_ofExcept.mpr ⟨trivial, ?_⟩)
  change outcome _ _ (replayRecords _ (_, Version.empty.nextSeq)) _
  cases replayRecords x.2.records (.new self.options.memtableSize, Version.empty.nextSeq) with
  | error err => exact hloads hx
  | ok y => exact wpE_pure.mpr ⟨trivial, hloads hx⟩

theorem completes_openMissing {fs fs' : SimFs} {r : Except DbError Db}
    (hfail : e.fail (.open (manifestPath self.dir)))
    (h : fs.exec (openMissing self) () = some (r, fs', ())) :
    Completes (memSem (SimFs.sem e) False) (openOn self).run (fs, ()) r (fs', ()) := by
  refine ⟨.error (.io (manifestPath self.dir) ""), (fs, ()),
    ⟨Or.inr ⟨hfail, ⟨"", rfl⟩, rfl⟩, rfl⟩, ?_⟩
  exact SimFs.completes_of_exec h

/-! ### Directories and failing calls -/

/-- A directory with a manifest that can be read or none, with segments that have the log's
own names, and with nothing behind the place where the replay ends. -/
structure Orderly (dir : Dir) (fs : SimFs) : Prop where
  tidy : fs.Tidy
  manifest : ∃ v, Loads dir fs.disk v
  names : Wal.Plain (Wal.segments fs dir)
  behind : ∀ s ∈ Wal.afterStop (Wal.segments fs dir), s.2 = []

/-- The look for the manifest does not fail, or nothing depends on it: there is none, it is
empty, or the log has a payload that is no record. -/
def NothingToLose (e : Faults) (dir : Dir) (fs : SimFs) : Prop :=
  e.fail (.open (manifestPath dir)) → ∀ c, fs.contents (manifestPath dir) = some c →
    decodeVersion c = .ok .empty ∨
      ∃ p ∈ (Wal.replay (Wal.byId (Wal.segments fs dir)) .default).records, ¬ IsRecord p

/-- **A failed opening does no harm**, whichever calls failed, exactly if nothing depends
on the look for the manifest. -/
theorem Orderly.opensAlike_iff {fs : SimFs} (h : Orderly self.dir fs) (e : Faults) :
    (∀ r fs', Completes (memSem (SimFs.sem e) False) (openOn self).run (fs, ()) r (fs', ()) →
      OpensAlike self fs fs') ↔ NothingToLose e self.dir fs := by
  obtain ⟨ht, ⟨v, hm⟩, hplain, hbehind⟩ := h
  have hb := Wal.buffers_segments ht self.dir
  constructor
  · intro h hfail c hc
    have hdec : decodeVersion c = .ok v := by
      obtain ⟨b, hl, rfl⟩ := ht.exists_blob hc
      rcases hm with ⟨b', hl', hv⟩ | ⟨hno, -⟩
      · obtain rfl := Option.some.inj (hl.symm.trans hl')
        exact hv
      · rw [hl] at hno
        cases hno
    -- the look fails, and nothing else does
    have hspec := wpE_openMissing (m := ()) hb hplain
    obtain ⟨r, fs', _, hexec⟩ := SimFs.exec_total ht hspec
    obtain ⟨ht', -, hpost⟩ := SimFs.exec_spec ht hspec hexec
    have hloads : Loads self.dir fs'.disk .empty := by
      cases r with
      | ok _ => exact hpost
      | error _ => exact hpost
    obtain ⟨r₀, r₁, s, s', hopen, hopen', hsame, -⟩ := h r fs' (completes_openMissing hfail hexec)
    obtain ⟨_, -, hr₀⟩ := SimFs.exec_spec ht (wpE_openOn (m := ()) (H := True) hm hb) hopen
    obtain ⟨_, -, hr₁⟩ := SimFs.exec_spec ht' (wpE_openOn (m := ()) (H := True) hloads
      (Wal.buffers_segments ht' self.dir)) hopen'
    cases r₀ with
    | error err => exact Or.inr (replayRecords_error_iff.mp ⟨err, hr₀ hplain.adoptable⟩)
    | ok db =>
      cases r₁ with
      | error err => exact hsame.elim
      | ok db' =>
        obtain ⟨wal, x, -, -, rfl, -⟩ := hr₀
        obtain ⟨wal', x', -, -, rfl, -⟩ := hr₁
        have hversion : Version.empty = v :=
          congrArg (fun m : Manifest => m.current.val) hsame.2.1
        exact Or.inl (hversion ▸ hdec)
  · intro hlook r fs' hrun
    have hleft : ∀ V : Set Version, v ∈ V → (e.fail (.open (manifestPath self.dir)) →
        (fs.disk (manifestPath self.dir)).live.isSome → .empty ∈ V) → fs'.Tidy ∧
        Wal.Left self.dir (Beside self V fs.disk) (Wal.segments fs self.dir) fs'.disk := by
      intro V hv hV
      have hspec := SimFs.wp_exec ht (wpE_openOn_left (e := e) (m := ()) (H := True) hm hv hb
        hplain hV)
      obtain ⟨⟨ht', -⟩, hpost⟩ := wp_completes (wpE_iff.mp hspec) hrun
      cases r with
      | ok _ => exact ⟨ht', hpost⟩
      | error _ => exact ⟨ht', hpost⟩
    by_cases hno : ∃ p ∈ (Wal.replay (Wal.byId (Wal.segments fs self.dir)) .default).records,
        ¬ IsRecord p
    · obtain ⟨ht', hl⟩ := hleft Set.univ trivial fun _ _ => trivial
      exact opensAlike_of_left ht ht' hm hb hplain hbehind hl (Or.inr hno)
    · obtain ⟨ht', hl⟩ := hleft {v} rfl fun hfail hsome => by
        obtain ⟨b, hlive⟩ := Option.isSome_iff_exists.mp hsome
        have hc : fs.contents (manifestPath self.dir) = some b.content := by
          rw [ht.contents, hlive]
          rfl
        have hempty := (hlook hfail _ hc).resolve_right hno
        rcases hm with ⟨b', hl', hv⟩ | ⟨hnone, -⟩
        · obtain rfl := Option.some.inj (hlive.symm.trans hl')
          exact Except.ok.inj (hempty.symm.trans hv)
        · rw [hlive] at hnone
          cases hnone
      exact opensAlike_of_left ht ht' hm hb hplain hbehind hl (Or.inl rfl)

/-! ### What runs leave -/

/-- What is left of a client's world: its files when the process ends, or when the power
goes, between two calls or in one of them. -/
inductive LeftBy (cfg : Config) : World → SimFs → Prop
  | ended {w : World} : LeftBy cfg w w.fs
  | crashed {w : World} : LeftBy cfg w w.fs.crash
  | openCut {fs fs' : SimFs} {ws : List Attempt} (h : SimFs.Stops (openOn cfg) fs () fs' ()) :
      LeftBy cfg ⟨fs, none, ws⟩ fs'.crash
  | commandCut {fs fs' : SimFs} {ws : List Attempt} {db db' : Db} {c : Command}
      (hok : Fits cfg fs db c) (h : SimFs.Stops (c.program cfg) fs db fs' db') :
      LeftBy cfg ⟨fs, some db, ws⟩ fs'.crash

theorem orderly_of_tears {dir : Dir} {fs : SimFs} {gs : List (Nat × Blob)} {k : Nat}
    {all : List Bytes} {T : Contents} (ht : fs.Tidy) (htears : Wal.Tears dir fs.disk gs)
    (hs : Wal.Survives (gs.map Prod.snd) k all) (hm : Image Slot.live dir fs.disk v T) :
    Orderly dir fs := by
  obtain ⟨hplain, hbehind⟩ := htears.orderly hs (Wal.buffers_segments ht dir)
  refine ⟨ht, ⟨v, ?_⟩, hplain, hbehind⟩
  rcases hm.manifest with hl | hl
  · refine Or.inl ⟨_, hl, ?_⟩
    rw [Blob.content_mk, List.append_nil]
    exact hm.decodes
  · exact Or.inr hl

theorem Rests.orderly {ok : History Bytes InternalValue → Prop} {may : Set Bool} {fs : SimFs}
    (h : Rests self may ok fs.disk) (ht : fs.Tidy) : Orderly self.dir fs := by
  cases h with
  | @closed A since L v T hL hrec hpend hs hd hlater hfound hnext =>
    have hsurv := L.survives hL.fits (fun b hb => absurd hb List.not_mem_nil) []
    rw [List.append_nil] at hsurv
    exact orderly_of_tears ht hL.kept.tears hsurv hs.live
  | lost hk htail hsurv hs => exact orderly_of_tears ht hk.tears hsurv hs.live

/-- No tear does harm, not even one that passes for a frame. -/
theorem Safe.orderly {ok : History Bytes InternalValue → Prop} {fs : SimFs}
    (h : Safe self ok fs.disk) (ht : fs.Tidy) : Orderly self.dir fs.crash := by
  obtain ⟨A, since, k, n, v, T, -, ⟨himage, -, gs, hsegs, hsurv⟩, -⟩ := h
  have hc := SimFs.crash_refines ht
  exact orderly_of_tears (SimFs.crash_tidy ht) (hsegs.tears hc) hsurv (himage.crash hc).1

theorem LeftBy.orderly {w : World} {fs : SimFs} (hleft : LeftBy self w fs)
    (hdur : self.options.durability.isDurable) (hw : World.Survivable self (Fits self) w) :
    Orderly self.dir fs := by
  have h := hw.consistent hdur
  cases hleft with
  | ended => exact h.holds.rests.orderly h.tidy
  | crashed =>
    exact (h.holds.rests.crash hdur (SimFs.crash_refines h.tidy)).orderly (SimFs.crash_tidy h.tidy)
  | openCut hrun =>
    obtain ⟨ht', hsafe⟩ := SimFs.stops_spec h.tidy (World.wpE_opened h.holds rfl) hrun
    exact hsafe.orderly ht'
  | commandCut hok hrun =>
    obtain ⟨H, -, hq⟩ := h.holds
    obtain ⟨ht', hsafe⟩ := SimFs.stops_exact h.tidy (wpE_program hq hok.room hok.record)
      hok.lossless hrun
    exact hsafe.orderly ht'

/-- **Opening is failure-atomic** in every directory that a run in a durable mode or a
power loss leaves, and in every other one that is orderly, whichever calls fail, exactly if
nothing depends on the look for the manifest. -/
theorem open_failure_atomic_iff (cfg : Config) :
    (cfg.options.durability.isDurable → ∀ w fs, World.Survivable cfg (Fits cfg) w →
      LeftBy cfg w fs → Orderly cfg.dir fs) ∧
    ∀ fs, Orderly cfg.dir fs → ∀ e : Faults,
      (∀ r fs', Completes (memSem (SimFs.sem e) False) (openOn cfg).run (fs, ()) r (fs', ()) →
        OpensAlike cfg fs fs') ↔ NothingToLose e cfg.dir fs :=
  ⟨fun hdur _ _ hw hleft => hleft.orderly hdur hw, fun _ h e => h.opensAlike_iff e⟩

/-- What a key has in the database that opens from these files. -/
def reads (self : Config) (fs : SimFs) (key : Bytes) : Option (Option Bytes) :=
  match fs.exec (openOn self) () with
  | some (.ok db, s, ()) =>
    match s.exec (get self key) db with
    | some (.ok value, _, _) => some value
    | _ => none
  | _ => none

end Programs

/-- The look for the manifest fails. -/
def lookFails (dir : Dir) : Faults where
  fail o := o = .open (manifestPath dir)
  short _ _ _ := False

/-- No file gets another name. -/
def renames : StorageOp → Bool
  | .rename _ _ => true
  | _ => false

def renameFails : Faults := ⟨fun o => renames o = true, fun _ _ _ => False⟩

/-- A table and three records in the log, the last one of a put that the power loss cuts. -/
def tornPut : List World.Event :=
  [.call .open, .call (.command (.put [1] [10])), .call (.command (.put [2] [20, 21])),
    .call (.command .flush), .call (.command (.delete [1])), .call (.command (.put [3] []))]

section Demo

attribute [local instance] TableHashing.emptyKey

/-- One byte of the record is left.  The opening that would cut it off fails, and the next
one finds what was acknowledged. -/
theorem open_failure_atomic_demo : ∃ w fs err fs',
    World.Survivable World.eagerConfig (Fits World.eagerConfig) w ∧
    LeftBy World.eagerConfig w fs ∧
    Wal.stopsAt (Wal.segments fs World.eagerConfig.dir) = some (.plain 2) ∧
    Completes (memSem (SimFs.sem renameFails) False) (openOn World.eagerConfig).run (fs, ())
      (.error err) (fs', ()) ∧
    OpensAlike World.eagerConfig fs fs' ∧
    [1, 2, 3, 4].map (fun k => reads World.eagerConfig fs' [k]) =
      [some none, some (some [20, 21]), some (some []), some none] := by
  have hend : ((World.playWith World.eagerConfig (fun _ => 1) tornPut).bind fun w =>
      w.db.bind fun db =>
        let fs := (SimFs.cutAt (Command.program World.eagerConfig (.put [4] [40])) 4 w.fs db).1.crash
        (eval (memRun (SimFs.runBut renames)) (openOn World.eagerConfig).run (fs, ())).map fun x =>
          (decide (Fits World.eagerConfig w.fs db (.put [4] [40])), x.1.isOk,
            decide (Wal.stopsAt (Wal.segments fs World.eagerConfig.dir) = some (.plain 2)),
            decide ([1, 2, 3, 4].map (fun k => reads World.eagerConfig x.2.1 [k]) =
              [some none, some (some [20, 21]), some (some []), some none]))) =
      some (true, false, true, true) := by decide +kernel
  obtain ⟨⟨s, db, ws⟩, hw, hend⟩ := Option.bind_eq_some_iff.mp hend
  obtain ⟨db, rfl, hend⟩ := Option.bind_eq_some_iff.mp hend
  obtain ⟨⟨r, fs', _⟩, hopen, hend⟩ := Option.map_eq_some_iff.mp hend
  simp only [Prod.mk.injEq] at hend
  obtain ⟨hfits, hr, hstops, hreads⟩ := hend
  cases r with
  | ok db' => cases hr
  | error err =>
    have hrun := World.survivable_of_playWith rfl hw
    have hleft : LeftBy World.eagerConfig ⟨s, some db, ws⟩ _ :=
      .commandCut (of_decide_eq_true hfits) (SimFs.stops_cutAt _ 4 s db)
    have hdone : Completes (memSem (SimFs.sem renameFails) False) (openOn World.eagerConfig).run
        (_, ()) (.error err) (fs', ()) :=
      completes_of_eval (memSem_memRun (SimFs.step_runBut fun _ ho => ho)) hopen
    have hatomic := open_failure_atomic_iff World.eagerConfig
    have horderly := hatomic.1 rfl _ _ hrun hleft
    have halike := (hatomic.2 _ horderly renameFails).mpr (fun hf => nomatch hf) _ _ hdone
    exact ⟨_, _, err, fs', hrun, hleft, of_decide_eq_true hstops, hdone, halike,
      of_decide_eq_true hreads⟩

end Demo

/-- **One failed call loses a table**: where the look for the manifest fails, what was put
and flushed is not there when the directory is opened again. -/
theorem failed_look_loses : letI := TableHashing.emptyKey
    ∃ x : SimFs × Db, ∃ r fs', afterOpen demoConfig [.put [] [], .flush] = some x ∧
      Completes (memSem (SimFs.sem (lookFails demoConfig.dir)) False) (openOn demoConfig).run
        (x.1, ()) r (fs', ()) ∧
      reads demoConfig x.1 [] = some (some []) ∧ reads demoConfig fs' [] = some none := by
  let _ := TableHashing.emptyKey
  have hbefore : (afterOpen demoConfig [.put [] [], .flush]).map (fun x => reads demoConfig x.1 []) =
      some (some (some [])) := by decide +kernel
  have hafter : ((afterOpen demoConfig [.put [] [], .flush]).bind fun x =>
      (x.1.exec (openMissing demoConfig) ()).map fun y => reads demoConfig y.2.1 []) =
      some (some none) := by decide +kernel
  obtain ⟨x, hx, hreads⟩ := Option.map_eq_some_iff.mp hbefore
  rw [hx] at hafter
  obtain ⟨⟨r, fs', _⟩, hexec, hreads'⟩ := Option.map_eq_some_iff.mp hafter
  exact ⟨x, r, fs', hx, completes_openMissing rfl hexec, hreads, hreads'⟩

end AccretionDb.Db
