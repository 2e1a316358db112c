import AccretionDb.Compaction.Cascade
import AccretionDb.Manifest.Install

/-! # Running a compaction

`compact_tier` and the loop around it, as programs over the storage and the manifest's
memory.  A pass holds the version it works on until it returns.
-/

namespace AccretionDb

open CrashLogic

variable [TableHashing] {M : Type}

/-- The inputs of a compaction: how many entries they have together, and the entries
of each. -/
def readInputs (dir : Dir) : List TableMeta → Io M CompactionError (Nat × List (List Entry))
  | [] => pure (0, [])
  | table :: inputs => do
    let reader ← (SsTableReader.open (tablePath dir table.id)).mapError .ssTable
    let entries ← readAllEntries reader
    let (expectedKeys, sources) ← readInputs dir inputs
    pure (reader.numEntries + expectedKeys, entries :: sources)

namespace Manifest

/-- `compact_tier`. -/
def compactTier (dir : Dir) (version : Version) (t : Nat) : Io Manifest CompactionError Unit := do
  let output ← Act.scope () do
    let (expectedKeys, sources) ← readInputs dir (version.tiers[t]?.getD [])
    let outId := version.nextTableId
    writeTable (tablePath dir outId) outId expectedKeys
      (compactEntries (outputIsBottom version t) sources)
  (install dir (version.merged t output)).mapError .manifest

/-- Run `p` on the current version, which is held as long as `p` runs. -/
def withCurrent {ε α : Type} (l : Part M Manifest) (p : Version → Io M ε α) : Io M ε α := do
  let version ← Act.zoom l pinCurrent
  let r ← (p version.val).attempt
  Act.zoom l (Act.modify (unpin version))
  Act.ofExcept r

/-- `maybe_compact`: the answer is whether there was a tier to compact. -/
def maybeCompact (dir : Dir) (fanout : Nat) : Io Manifest CompactionError Bool :=
  withCurrent .self fun version =>
    match firstFull fanout version with
    | none => pure false
    | some t => do
      compactTier dir version t
      pure true

/-- The loop at the end of a flush; without rounds left it is still running. -/
def cascade (dir : Dir) (fanout : Nat) : Nat → Io Manifest CompactionError Unit
  | 0 => Act.hang
  | rounds + 1 => do
    if ← maybeCompact dir fanout then cascade dir fanout rounds else pure ()

/-! ### Holding the current version -/

section Specs

variable {ε α : Type} {e : Faults} {strict H : Prop} {C : Disk × M → Prop} {d : Disk} {m : M}

omit [TableHashing] in
/-- The program runs on a memory in which the version is held, and then drops it. -/
theorem wpE_withCurrent (l : Part M Manifest) {p : Version → Io M ε α} {Q : α → Disk × M → Prop}
    {R : ε → Disk × M → Prop} (hC : C (d, m))
    (hdrop : ∀ σ, C σ → C (σ.1, l.set (unpin (l.get m).current (l.get σ.2)) σ.2))
    (h : wpE (Disk.sem e) strict H C (p (l.get m).current.val)
      (fun a σ => Q a (σ.1, l.set (unpin (l.get m).current (l.get σ.2)) σ.2))
      (fun err σ => R err (σ.1, l.set (unpin (l.get m).current (l.get σ.2)) σ.2))
      (d, l.set (l.get m).pin m)) :
    wpE (Disk.sem e) strict H C (withCurrent l p) Q R (d, m) := by
  have hhold : C (d, l.set (l.get m).pin m) := wpE_crash h
  have hself : C (d, l.set (l.get m) m) := by rwa [l.set_get]
  refine wpE_bind.mpr (wpE_zoom l (wpE_bind.mpr (wpE_modifyGet hself hhold
    (wpE_pure.mpr ⟨hhold, ?_⟩))))
  -- whatever became of the program, the version is dropped and the outcome passed on
  have hrest : ∀ (r : Except ε α) σ, C σ →
      outcome Q R r (σ.1, l.set (unpin (l.get m).current (l.get σ.2)) σ.2) →
      wpE (Disk.sem e) strict H C (Act.zoom l (Act.modify (unpin (l.get m).current)) >>= fun _ =>
        Act.ofExcept r) Q R σ := by
    rintro r ⟨d', m'⟩ hc hq
    have hc' : C (d', l.set (l.get m') m') := by rwa [l.set_get]
    exact wpE_bind.mpr (wpE_zoom l (wpE_modify hc' (hdrop _ hc)
      (wpE_ofExcept.mpr ⟨hdrop _ hc, hq⟩)))
  refine wpE_bind.mpr (wpE_attempt (wpE_post h (fun a σ hc hq => ?_) fun err σ hc hr => ?_))
  · exact hrest (.ok a) σ hc hq
  · exact hrest (.error err) σ hc hr

omit [TableHashing] in
/-- On the simulator the program runs on a memory in which the version is held. -/
theorem exec_withCurrent (l : Part M Manifest) (p : Version → Io M ε α) (s : SimFs) (m : M) :
    s.exec (withCurrent l p) m =
      (s.exec (p (l.get m).current.val) (l.set (l.get m).pin m)).map fun x =>
        (x.1, x.2.1, l.set (unpin (l.get m).current (l.get x.2.2)) x.2.2) := by
  have hpin : s.exec (Act.zoom l (pinCurrent : Io Manifest ε _)) m =
      some (.ok (l.get m).current, s, l.set (l.get m).pin m) := by
    rw [SimFs.exec_zoom]
    rfl
  rw [withCurrent, SimFs.exec_bind_of_ok _ hpin, SimFs.exec_bind_eq, SimFs.exec_attempt]
  cases s.exec (p (l.get m).current.val) (l.set (l.get m).pin m) with
  | none => rfl
  | some x =>
    obtain ⟨r, s', m'⟩ := x
    have hunpin : s'.exec (Act.zoom l (Act.modify (unpin (l.get m).current) :
        Io Manifest ε _)) m' = some (.ok (), s', l.set (unpin (l.get m).current (l.get m')) m') := by
      rw [SimFs.exec_zoom]
      rfl
    exact SimFs.exec_bind_of_ok _ hunpin

/-- Where no tier is full the cascade does nothing. -/
theorem wpE_cascade_quiet {dir : Dir} {fanout rounds : Nat} {m : Manifest}
    {C : Disk × Manifest → Prop} {Q : Unit → Disk × Manifest → Prop}
    {R : CompactionError → Disk × Manifest → Prop} (hH : H) (hC : C (d, m)) (hpin : C (d, m.pin))
    (hdrop : ∀ σ, C σ → C (σ.1, unpin m.current σ.2))
    (hquiet : firstFull fanout m.current.val = none)
    (hok : Q () (d, unpin m.current m.pin)) :
    wpE (Disk.sem e) strict H C (cascade dir fanout rounds) Q R (d, m) := by
  cases rounds with
  | zero => exact wpE_hang hC hH
  | succ rounds =>
    refine wpE_bind.mpr (wpE_withCurrent .self hC hdrop ?_)
    have hcur : firstFull fanout (Part.self.get m).current.val = none := hquiet
    rw [hcur]
    exact wpE_pure.mpr ⟨hpin, wpE_pure.mpr ⟨hdrop _ hpin, hok⟩⟩

end Specs

end Manifest

end AccretionDb
