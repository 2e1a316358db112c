import AccretionDb.Db.Survey

/-! # When a cascade ends

The loop of compactions at the end of a flush, on a storage that does not fail.  As long as
the next table's path is free it takes the passes of `settle`, one by one: its own garbage
collection keeps the path free.  If a file is in the way, the first pass fails.
-/

namespace AccretionDb.Db

open CrashLogic

section Hashed

variable [TableHashing] {dir : Dir} {fanout : Nat} {T : Contents}

/-! ### What a compaction needs -/

/-- The tables of the version are on the disk, and are as its metadata says. -/
structure Tables (dir : Dir) (v : Version) (T : Contents) (d : Disk) : Prop where
  words : v.Words
  kept : Kept Slot.live dir d T v.referencedIds
  arranged : Arranged v T

/-- The manifest on the disk is the one in memory, and the tables of the current version are
there. -/
abbrev Stocked (dir : Dir) (T : Contents) (σ : Disk × Manifest) : Prop :=
  Shelf dir (fun _ => True) (Tables dir) T σ

theorem upkeep_tables :
    Upkeep dir (fun _ => True) (fun _ _ => True) (Tables dir) where
  log _ _ _ h := h
  commit _ h := h
  congr _ _ _ _ hs h := ⟨h.words, fun id hid => by rw [hs id hid]; exact h.kept id hid, h.arranged⟩
  durable _ _ _ _ := trivial
  words _ _ _ h := h.words
  kept _ _ _ h := h.kept
  arranged _ _ _ h := h.arranged

/-- **A handle of a client is stocked**, between two of its calls, with the tables that answer
for the keys which are not in memory. -/
theorem World.Visited.stocked {cfg : Config} {w : World} (h : World.Visited cfg w) {db : Db}
    (hdb : w.db = some db) : w.fs.Tidy ∧ ∃ T, Stocked cfg.dir T (w.fs.disk, db.manifest) ∧
      ∀ key, db.memtables.get key = none → (w.fs.exec (Db.get cfg key) db).map Prod.fst =
        some (.ok (db.manifest.current.val.get T key)) := by
  obtain ⟨ht, hh⟩ := h.consistent
  rw [World.Holds, hdb] at hh
  obtain ⟨H, -, hq⟩ := hh
  obtain ⟨A, since, L, T, -, hst⟩ := hq.sound
  have hreads := Shelf.mem hst.shelf
  refine ⟨ht, T, ⟨trivial, Shelf.shelved hst.shelf, ⟨hreads.words, hreads.kept, hreads.arranged⟩,
    Shelf.older hst.shelf⟩, fun key hmem => ?_⟩
  have hget : wpE (Disk.sem Faults.none) False False (fun _ => True) (Db.get cfg key)
      (fun a _ => a = db.manifest.current.val.get T key) (fun _ _ => False) (w.fs.disk, db) := by
    refine wpE_get_reads hreads fun db' _ => ?_
    rw [lookup_append, ← MemtableSet.get_eq, hmem, Option.none_or,
      ← Version.find_eq hreads.arranged.describes]
    rfl
  obtain ⟨a, fs', db', he, -, rfl⟩ := SimFs.exec_ok ht hget
  rw [he]
  rfl

/-! ### The passes of the loop -/

variable {d : Disk} {m : Manifest}

/-- **The loop takes the passes of `settle`**, if the next table's path is free and the ids
last: it is still running as long as those are. -/
theorem wpE_cascade_passes : ∀ (passes : Nat) {d : Disk} {m : Manifest} {T : Contents},
    Stocked dir T (d, m) → m.current.val.nextTableId + passes < 2 ^ 64 →
      taken dir d m.current.val = false →
      wpE (Disk.sem Faults.none) True (settle fanout passes m.current.val T = none)
        (fun _ => True) (Manifest.cascade dir fanout passes)
        (fun _ σ => ∃ T', settle fanout passes m.current.val T = some (σ.2.current.val, T'))
        (fun _ _ => False) (d, m) := by
  intro passes
  induction passes with
  | zero => exact fun _ _ _ => wpE_hang trivial rfl
  | succ passes ih =>
    intro d m T h hroom hfree
    have hpin : Stocked dir T (d, m.pin) := h.hold rfl
    refine wpE_bind.mpr (Manifest.wpE_withCurrent .self trivial (fun _ _ => trivial) ?_)
    cases hfull : firstFull fanout m.current.val with
    | none =>
      have hget : firstFull fanout (Part.self.get m).current.val = none := hfull
      rw [hget]
      refine wpE_pure.mpr ⟨trivial, wpE_pure.mpr ⟨trivial, T, ?_⟩⟩
      rw [settle, hfull]
      rfl
    | some t =>
      have hget : firstFull fanout (Part.self.get m).current.val = some t := hfull
      rw [hget]
      obtain ⟨v', T', hc⟩ := exists_compactTier h.mem.arranged hfull
      have hpass : settle fanout (passes + 1) m.current.val T = settle fanout passes v' T' := by
        rw [settle, hfull]
        dsimp only
        rw [hc, Option.bind_some]
      obtain ⟨above, inputs, below, out, hcomp⟩ := compactTier_eq_some hc
      refine wpE_bind.mpr (wpE_compactTier_held upkeep_tables (fun _ _ => trivial)
        (fun ha => absurd ha Faults.not_any_none) hpin hc ?_
        (fun d' hs hk hw => ⟨hw, hk, hcomp.arranged h.mem.arranged⟩)
        (fun _ σ hσ hcur hfree' => ?_) fun hfile _ => ?_)
      · show m.current.val.nextTableId + 1 < _
        omega
      · -- the pass has installed a version, and its path for the next table is free
        have hσ' : Stocked dir T' (σ.1, σ.2.unpin m.current) := hσ.hold rfl
        have hcur' : (σ.2.unpin m.current).current.val = v' := hcur
        refine wpE_pure.mpr ⟨trivial, ?_⟩
        have hnext := ih hσ' ?_ (by rw [hcur']; exact hfree')
        · rw [hcur', ← hpass] at hnext
          exact hnext
        · have hle : v'.nextTableId ≤ m.current.val.nextTableId + 1 :=
            (nextTableId_compactTier hc).2
          show σ.2.current.val.nextTableId + passes < _
          rw [hcur]
          omega
      · exact Bool.false_ne_true (hfree.symm.trans hfile)

/-- If a file is in the way, a loop with a tier to compact fails. -/
theorem wpE_cascade_blocked {passes t : Nat} (h : Stocked dir T (d, m))
    (hroom : m.current.val.nextTableId + (passes + 1) < 2 ^ 64)
    (hfile : taken dir d m.current.val = true) (hfull : firstFull fanout m.current.val = some t) :
    wpE (Disk.sem Faults.none) True True (fun _ => True)
      (Manifest.cascade dir fanout (passes + 1)) (fun _ _ => False) (fun _ _ => True) (d, m) := by
  have hpin : Stocked dir T (d, m.pin) := h.hold rfl
  refine wpE_bind.mpr (Manifest.wpE_withCurrent .self trivial (fun _ _ => trivial) ?_)
  have hget : firstFull fanout (Part.self.get m).current.val = some t := hfull
  rw [hget]
  obtain ⟨v', T', hc⟩ := exists_compactTier h.mem.arranged hfull
  obtain ⟨above, inputs, below, out, hcomp⟩ := compactTier_eq_some hc
  refine wpE_bind.mpr (wpE_compactTier_held upkeep_tables (fun _ _ => trivial)
    (fun _ _ _ _ => trivial) hpin hc ?_
    (fun d' hs hk hw => ⟨hw, hk, hcomp.arranged h.mem.arranged⟩)
    (fun hfree _ _ _ _ => ?_) fun _ _ => trivial)
  · show m.current.val.nextTableId + 1 < _
    omega
  · have hfree : taken dir d m.current.val = false := hfree
    exact (Bool.false_ne_true (hfree.symm.trans hfile)).elim

/-! ### The end of the loop -/

/-- In so many passes of the loop no table id and no length overflows. -/
def Lasts (dir : Dir) (fanout : Nat) (s : SimFs) (m : Manifest) (passes : Nat) : Prop :=
  m.current.val.nextTableId + passes < 2 ^ 64 ∧ s.Exact (Manifest.cascade dir fanout passes) m

/-- The loop returns `Ok` after finitely many passes, and then every tier has fewer tables
than the fanout, or there is no table. -/
def Settles (dir : Dir) (fanout : Nat) (s : SimFs) (m : Manifest) : Prop :=
  ∃ passes s' m', Lasts dir fanout s m passes ∧
    s.exec (Manifest.cascade dir fanout passes) m = some (.ok (), s', m') ∧
    (m'.current.val.Balanced fanout ∨ m'.current.val.allTables = [])

variable {s : SimFs}

/-- Where the loop returns `Ok`, `settle` has ended, or there was nothing to do. -/
theorem settlesIn_of_exec (ht : s.Tidy) (h : Stocked dir T (s.disk, m)) {passes : Nat}
    (hlasts : Lasts dir fanout s m passes) {s' : SimFs} {m' : Manifest}
    (he : s.exec (Manifest.cascade dir fanout passes) m = some (.ok (), s', m')) :
    m.current.val.Balanced fanout ∨ taken dir s.disk m.current.val = false ∧
      SettlesIn fanout passes m.current.val T := by
  obtain ⟨hroom, hx⟩ := hlasts
  cases hfile : taken dir s.disk m.current.val with
  | false =>
    obtain ⟨-, -, T', hq⟩ := SimFs.exec_exact ht (wpE_cascade_passes passes h hroom hfile) hx he
    refine Or.inr ⟨rfl, ?_⟩
    rw [SettlesIn, hq]
    rfl
  | true =>
    cases hfull : firstFull fanout m.current.val with
    | none => exact Or.inl (firstFull_eq_none.mp hfull)
    | some t =>
      cases passes with
      | zero => cases he
      | succ passes =>
        obtain ⟨-, -, hno⟩ := SimFs.exec_exact ht (wpE_cascade_blocked h hroom hfile hfull) hx he
        exact hno.elim

/-- Where `settle` ends and no file is in the way, so does the loop. -/
theorem exec_of_settlesIn (ht : s.Tidy) (h : Stocked dir T (s.disk, m)) {passes : Nat}
    (hlasts : Lasts dir fanout s m passes) (hfile : taken dir s.disk m.current.val = false)
    (hs : SettlesIn fanout passes m.current.val T) : Settles dir fanout s m := by
  obtain ⟨hroom, hx⟩ := hlasts
  have hnot : ¬ settle fanout passes m.current.val T = none := fun hno => by
    rw [SettlesIn, hno] at hs
    cases hs
  have hspec := @wpE_cascade_passes _ dir fanout passes _ _ _ h hroom hfile
  rw [eq_false hnot] at hspec
  obtain ⟨r, s', m', he⟩ := SimFs.exec_exact_total ht hspec hx
  obtain ⟨-, -, hq⟩ := SimFs.exec_exact ht hspec hx he
  cases r with
  | error err => exact hq.elim
  | ok u =>
    obtain ⟨T', hq⟩ := hq
    exact ⟨passes, s', m', ⟨hroom, hx⟩, he, Or.inl (balanced_of_settle h.mem.arranged hq)⟩

/-- With no tier to compact the loop ends at once. -/
theorem exec_of_balanced {passes : Nat} (hp : 0 < passes) (hlasts : Lasts dir fanout s m passes)
    (hb : m.current.val.Balanced fanout) : Settles dir fanout s m := by
  obtain ⟨passes, rfl⟩ : ∃ n, passes = n + 1 := ⟨passes - 1, by omega⟩
  refine ⟨passes + 1, s, m.pin.unpin m.current, hlasts, ?_, Or.inl hb⟩
  have hnone : firstFull fanout (Part.self.get m).current.val = none := firstFull_eq_none.mpr hb
  have hpass : s.exec (Manifest.maybeCompact dir fanout) m =
      some (.ok false, s, m.pin.unpin m.current) := by
    rw [Manifest.maybeCompact, Manifest.exec_withCurrent, hnone]
    rfl
  rw [Manifest.cascade, SimFs.exec_bind_of_ok _ hpass]
  rfl

/-- **When the cascade ends.**  The loop at the end of a flush returns `Ok` after finitely
many passes, with fewer tables in every tier than the fanout or with no table at all, exactly
if there is nothing to compact, or the next table's path is free and the fanout is at least
two, or it is one and no key has a value, or it is zero and no table is outside the first tier
and no key has a value. -/
theorem settles_iff (ht : s.Tidy) (h : Stocked dir T (s.disk, m))
    (hlasts : Lasts dir fanout s m m.current.val.passBound) :
    Settles dir fanout s m ↔ m.current.val.Balanced fanout ∨
      s.contents (tablePath dir m.current.val.nextTableId) = none ∧
        (2 ≤ fanout ∨ fanout = 1 ∧ m.current.val.Lifeless T ∨
          fanout = 0 ∧ (∀ t, 0 < t → m.current.val.tierLen t = 0) ∧
            m.current.val.Lifeless T) := by
  have hfree : s.contents (tablePath dir m.current.val.nextTableId) = none ↔
      taken dir s.disk m.current.val = false := by
    rw [ht.contents, Option.map_eq_none_iff, taken_eq_false]
  rw [hfree]
  constructor
  · rintro ⟨passes, s', m', hlasts', he, -⟩
    rcases settlesIn_of_exec ht h hlasts' he with hb | ⟨hfile, hs⟩
    · exact Or.inl hb
    · rcases hs.ends h.mem.arranged with hc | hc | ⟨rfl, hc⟩
      · exact Or.inr ⟨hfile, Or.inl hc⟩
      · exact Or.inr ⟨hfile, Or.inr (Or.inl hc)⟩
      · rcases hc with hnil | hc
        · refine Or.inl fun t ht => ?_
          rw [Version.numTiers, hnil] at ht
          exact absurd ht (Nat.not_lt_zero t)
        · exact Or.inr ⟨hfile, Or.inr (Or.inr ⟨rfl, hc⟩)⟩
  · rintro (hb | ⟨hfile, hc⟩)
    · exact exec_of_balanced (Nat.succ_pos _) hlasts hb
    · refine exec_of_settlesIn ht h hlasts hfile (Version.Ends.settlesIn ?_ h.mem.arranged)
      exact hc.imp_right (Or.imp_right fun hc => ⟨hc.1, Or.inr hc.2⟩)

/-- Where `settle` has no end, the loop is running after every number of passes. -/
theorem runs_on (ht : s.Tidy) (h : Stocked dir T (s.disk, m))
    (hfile : taken dir s.disk m.current.val = false) (hno : ¬ m.current.val.Ends fanout T)
    {passes : Nat} (hlasts : Lasts dir fanout s m passes) :
    s.exec (Manifest.cascade dir fanout passes) m = none := by
  cases he : s.exec (Manifest.cascade dir fanout passes) m with
  | none => rfl
  | some x =>
    obtain ⟨r, s', m'⟩ := x
    obtain ⟨-, -, hq⟩ :=
      SimFs.exec_exact ht (wpE_cascade_passes passes h hlasts.1 hfile) hlasts.2 he
    cases r with
    | error err => exact hq.elim
    | ok u =>
      obtain ⟨T', hq⟩ := hq
      have hs : SettlesIn fanout passes m.current.val T := by
        rw [SettlesIn, hq]
        rfl
      exact absurd (hs.ends h.mem.arranged) hno

end Hashed

/-! ### A run -/

attribute [local instance] TableHashing.emptyKey

/-- Two tables, each with a key that has a value. -/
def twoTables : List World.Request :=
  [.open, .command (.put [1] [10]), .command .flush, .command (.put [2] [20, 21]), .command .flush]

/-- A database in which a tier with four tables is full. -/
def wideConfig : Config := ⟨[100], ⟨.always, 1024, 4⟩, 2⟩

instance (dir : Dir) (fanout : Nat) (s : SimFs) (m : Manifest) (passes : Nat) :
    Decidable (Lasts dir fanout s m passes) := inferInstanceAs (Decidable (_ ∧ _))

theorem exists_twoTables : ∃ w db T, World.Visited wideConfig w ∧ w.db = some db ∧ w.fs.Tidy ∧
    Stocked wideConfig.dir T (w.fs.disk, db.manifest) ∧
    w.fs.contents (tablePath wideConfig.dir db.manifest.current.val.nextTableId) = none ∧
    db.manifest.current.val.tiers.map List.length = [2] ∧
    db.manifest.current.val.get T [1] = some [10] ∧
    Lasts wideConfig.dir 2 w.fs db.manifest db.manifest.current.val.passBound ∧
    Lasts wideConfig.dir 1 w.fs db.manifest db.manifest.current.val.passBound := by
  have hend : ((World.callAll wideConfig twoTables).bind fun w => w.db.map fun db =>
      (db.manifest.current.val.tiers.map List.length,
        (w.fs.exec (Db.get wideConfig [1]) db).map fun x => x.1.toOption)) =
      some ([2], some (some (some [10]))) := by decide +kernel
  have hlasts : ((World.callAll wideConfig twoTables).bind fun w => w.db.map fun db =>
      ((w.fs.contents (tablePath wideConfig.dir db.manifest.current.val.nextTableId)).isNone,
        (db.memtables.get [1]).isNone,
        decide (Lasts wideConfig.dir 2 w.fs db.manifest db.manifest.current.val.passBound),
        decide (Lasts wideConfig.dir 1 w.fs db.manifest db.manifest.current.val.passBound))) =
      some (true, true, true, true) := by decide +kernel
  obtain ⟨w, hw, hend⟩ := Option.bind_eq_some_iff.mp hend
  obtain ⟨db, hdb, hend⟩ := Option.map_eq_some_iff.mp hend
  rw [hw, Option.bind_some, hdb] at hlasts
  simp only [Option.map_some, Option.some.injEq, Prod.mk.injEq] at hend hlasts
  obtain ⟨htiers, hget⟩ := hend
  obtain ⟨hfree, hmem, htwo, hone⟩ := hlasts
  have hv : World.Visited wideConfig w := Or.inl (World.reachable_of_callAll hw)
  obtain ⟨ht, T, hst, hanswer⟩ := hv.stocked hdb
  refine ⟨w, db, T, hv, hdb, ht, hst, Option.isNone_iff_eq_none.mp hfree, htiers, ?_,
    of_decide_eq_true htwo,
    of_decide_eq_true hone⟩
  have hfirst := hanswer [1] (Option.isNone_iff_eq_none.mp hmem)
  obtain ⟨x, hx, hval⟩ := Option.map_eq_some_iff.mp hget
  rw [hx, Option.map_some] at hfirst
  rw [Option.some.inj hfirst] at hval
  exact Option.some.inj hval

/-- Two tables in the first tier: with a fanout of two the loop ends, with one of one it does
not. -/
theorem settles_iff_demo : ∃ w db, World.Visited wideConfig w ∧ w.db = some db ∧
    ¬ db.manifest.current.val.Balanced 2 ∧ Settles wideConfig.dir 2 w.fs db.manifest ∧
    ¬ Settles wideConfig.dir 1 w.fs db.manifest := by
  obtain ⟨w, db, T, hv, hdb, ht, hst, hfree, htiers, hget, htwo, hone⟩ := exists_twoTables
  have hnot : ∀ fanout ≤ 2, ¬ db.manifest.current.val.Balanced fanout := by
    intro fanout hle hb
    have hlen : db.manifest.current.val.numTiers = 1 := by
      rw [Version.numTiers, ← List.length_map (f := List.length), htiers]
      rfl
    have hlt := hb 0 (by omega)
    rw [Version.tierLen, ← List.getElem?_map, htiers] at hlt
    exact absurd hlt (by simpa using hle)
  refine ⟨w, db, hv, hdb, hnot 2 (Nat.le_refl 2),
    (settles_iff ht hst htwo).mpr (Or.inr ⟨hfree, Or.inl (Nat.le_refl 2)⟩), fun hs => ?_⟩
  rcases (settles_iff ht hst hone).mp hs with hb | ⟨-, h | ⟨-, hl⟩ | ⟨h, -⟩⟩
  · exact hnot 1 (Nat.le_succ 1) hb
  · exact absurd h (by decide)
  · rw [hl [1]] at hget
    cases hget
  · exact absurd h (by decide)

/-- **The loop never ends** on these two tables with a fanout of one, or of zero: however
many passes it has made, it is still running. -/
theorem cascade_runs_on : ∃ w db, World.Visited wideConfig w ∧ w.db = some db ∧
    ∀ fanout < 2, ∀ passes, Lasts wideConfig.dir fanout w.fs db.manifest passes →
      w.fs.exec (Manifest.cascade wideConfig.dir fanout passes) db.manifest = none := by
  obtain ⟨w, db, T, hv, hdb, ht, hst, hfree, -, hget, -, -⟩ := exists_twoTables
  have hfile : taken wideConfig.dir w.fs.disk db.manifest.current.val = false := by
    rwa [ht.contents, Option.map_eq_none_iff, ← taken_eq_false] at hfree
  refine ⟨w, db, hv, hdb, fun fanout hlt passes hlasts => runs_on ht hst hfile ?_ hlasts⟩
  have hl : ¬ db.manifest.current.val.Lifeless T := fun hl => by
    rw [hl [1]] at hget
    cases hget
  rintro (h | ⟨-, h⟩ | ⟨rfl, hnil | ⟨-, h⟩⟩)
  · omega
  · exact hl h
  · obtain ⟨table, ht⟩ := Arranged.exists_table hl
    rw [Version.allTables, hnil] at ht
    cases ht
  · exact hl h

end AccretionDb.Db
