import AccretionDb.Db.Threads.Readers

/-! # The flush that runs

What a flush relies on from one step to the next (`Flushing.Fits`): while it has the lock
nobody else changes the memory or the current version.  Its new version has the frozen table
on top of the tables, or a tier of them merged (`ready_table`, `ready_tier`).
-/

namespace AccretionDb.Db

open CrashLogic

namespace Shared

/-- These tables are left in the memory, all of them frozen. -/
structure Left (s : Shared) (frozen : List (Arc Memtable)) : Prop where
  frozen : s.memtables.frozen = frozen
  active : ∀ key, s.memtables.active.versions key = none

/-- What the new version has that the current one has not. -/
def Follows (s : Shared) (new : Version) : Purpose → Prop
  | .table t rest => Left s (t :: rest) ∧
    new.layers s.written = t.val.versions :: s.manifest.current.val.layers s.written
  | .tier => Compacts (s.manifest.current.val.layers s.written) (new.layers s.written) ∨
    new.layers s.written = s.manifest.current.val.layers s.written

/-- The frozen table that was written is in the current version. -/
def Placed (s : Shared) (B : History Bytes InternalValue) : Purpose → Prop
  | .table t rest => Left s (t :: rest) ∧ graph t.val.versions ≤ B
  | .tier => True

end Shared

open Shared in
/-- What a flush relies on. -/
def Flushing.Fits (s : Shared) (B : History Bytes InternalValue) : Flushing → Prop
  | entering | quiescing | freezing | compacting => True
  | looping rest => Left s rest
  | writing version t rest => version = s.manifest.current ∧ Left s (t :: rest)
  | installing _ new purpose => Ready s new ∧ Follows s new purpose
  | collecting _ purpose | sweeping _ _ purpose => Placed s B purpose
  | discarding _ t rest => Placed s B (.table t rest)
  | resetting => Left s []
  | merging version t => version = s.manifest.current ∧ t < version.val.tiers.length

namespace Shared

variable {B : History Bytes InternalValue} {s s' : Shared}

theorem Left.same {frozen : List (Arc Memtable)} (h : Left s frozen) (hs : Same s s') :
    Left s' frozen where
  frozen := by
    rw [hs.memtables]
    exact h.frozen
  active := by
    rw [hs.memtables]
    exact h.active

theorem Ready.same {new : Version} (h : Ready s new) (hs : Same s s') (hf : s'.files = s.files)
    (hw : s'.written = s.written) : Ready s' new where
  arranged := by
    rw [hw]
    exact h.arranged
  next := by
    rw [hs.current]
    exact h.next
  there := by
    rw [hf, hw]
    exact h.there

theorem Follows.same {new : Version} {purpose : Purpose} (h : Follows s new purpose)
    (hs : Same s s') (hw : s'.written = s.written) : Follows s' new purpose := by
  cases purpose with
  | table t rest =>
    refine ⟨h.1.same hs, ?_⟩
    rw [hw, hs.current]
    exact h.2
  | tier =>
    rw [Follows, hw, hs.current]
    exact h

theorem Placed.same {purpose : Purpose} (h : Placed s B purpose) (hs : Same s s') :
    Placed s' B purpose := by
  cases purpose with
  | table t rest => exact ⟨h.1.same hs, h.2⟩
  | tier => trivial

end Shared

open Shared in
theorem Flushing.Fits.same {B : History Bytes InternalValue} {s s' : Shared} {f : Flushing}
    (h : f.Fits s B) (hs : Same s s') (hf : s'.files = s.files) (hw : s'.written = s.written) :
    f.Fits s' B := by
  cases f with
  | looping rest => exact Left.same h hs
  | writing version t rest => exact ⟨h.1.trans hs.current.symm, h.2.same hs⟩
  | installing version new purpose => exact ⟨h.1.same hs hf hw, h.2.same hs hw⟩
  | collecting version purpose => exact Placed.same h hs
  | sweeping version liveIds purpose => exact Placed.same h hs
  | discarding version t rest =>
    have hp : Placed s B (.table t rest) := h
    exact hp.same hs
  | resetting => exact Left.same h hs
  | merging version t => exact ⟨h.1.trans hs.current.symm, h.2⟩
  | _ => trivial

namespace Shared

variable {base B : History Bytes InternalValue} {s s' : Shared} {n i : Nat}

/-! ### The new version -/

/-- Everything that is written stays but for the next table. -/
theorem update_written (h : Files s) (es : List Entry) : ∀ v, s.Alive v →
    ∀ table ∈ v.val.allTables,
      Function.update s.written s.manifest.current.val.nextTableId es table.id =
        s.written table.id :=
  fun v hv table ht => Function.update_of_ne (Nat.ne_of_lt (h.below v hv table ht)) ..

/-- **A frozen table is written**, and the version with it is ready. -/
theorem ready_table (h : Store base s B n) (hf : Files s) {t : Arc Memtable}
    {rest : List (Arc Memtable)} (hleft : Left s (t :: rest)) {table : TableMeta}
    (hout : outputMeta s.manifest.current.val.nextTableId t.val.snapshot = some table)
    (nextSeq : Nat) {u : Thread} :
    letI s' := (s.writeFile s.manifest.current.val.nextTableId t.val.snapshot).setThread i u
    Ready s' (s.manifest.current.val.flushed table nextSeq) ∧
      Follows s' (s.manifest.current.val.flushed table nextSeq) (.table t rest) := by
  obtain ⟨first, more, hes, rfl⟩ : ∃ first more, t.val.snapshot = first :: more ∧
      tableMeta s.manifest.current.val.nextTableId first more = table := by
    cases hsnap : t.val.snapshot with
    | nil =>
      rw [hsnap] at hout
      cases hout
    | cons first more =>
      rw [hsnap] at hout
      exact ⟨first, more, rfl, Option.some.inj hout⟩
  have hlayer : layerOf (first :: more) = t.val.versions := by
    rw [← hes]
    exact funext t.val.layerOf_snapshot
  have hasc : Ascending (first :: more) := hes ▸ t.val.ascending_snapshot
  have hordered : Ordered (layerOf (first :: more) :: s.manifest.current.val.layers s.written) := by
    have hst := h.stacked
    rw [MemtableSet.layers_cons hleft.frozen] at hst
    rw [hlayer]
    have hbelow := h.frozen t (hleft.frozen ▸ List.mem_cons_self)
    exact (hst.install (Nat.le_refl n) hbelow).shelf.ordered
  rw [hes]
  have hold := hf.there _ (Or.inl rfl)
  have hne := hf.update_ne (some (first :: more)) _ (Or.inl rfl)
  have hw := update_written hf (first :: more) _ (Or.inl rfl)
  refine ⟨⟨h.arranged.flushed hasc nextSeq hordered, ?_, fun x hx => ?_⟩,
    ⟨hleft.frozen, hleft.active⟩, ?_⟩
  · rw [Version.nextTableId_flushed]
    exact Nat.le_succ _
  · show Function.update s.files _ _ x.id = some (Function.update s.written _ _ x.id)
    rcases (Version.mem_flushed ..).mp hx with rfl | hx
    · rw [show (tableMeta s.manifest.current.val.nextTableId first more).id =
        s.manifest.current.val.nextTableId from rfl, Function.update_self, Function.update_self]
    · rw [hne x hx, hw x hx]
      exact hold x hx
  · have hcur : s.manifest.current.val.layers (Function.update s.written
        s.manifest.current.val.nextTableId (first :: more)) =
          s.manifest.current.val.layers s.written := layers_congr hw
    show Version.layers _ (Function.update s.written _ _) = _ :: s.manifest.current.val.layers
      (Function.update s.written _ _)
    rw [Version.layers_flushed h.arranged.below, hcur, hlayer]

/-- A merge reads what was written. -/
theorem compactOutput_contents (hf : Files s) (t : Nat) :
    compactOutput s.manifest.current.val s.contents t =
      compactOutput s.manifest.current.val s.written t := by
  refine congrArg (compactEntries _) (List.map_congr_left fun table ht => ?_)
  have hmem : table ∈ s.manifest.current.val.allTables := by
    cases htier : s.manifest.current.val.tiers[t]? with
    | none =>
      rw [htier] at ht
      exact absurd ht List.not_mem_nil
    | some tier =>
      rw [htier] at ht
      exact List.mem_flatten.mpr ⟨tier, List.mem_of_getElem? htier, ht⟩
  rw [contents, hf.there _ (Or.inl rfl) table hmem]
  rfl

/-- **A tier is merged**, and the version with it is ready. -/
theorem ready_tier (h : Store base s B n) (hf : Files s) {t : Nat}
    (ht : t < s.manifest.current.val.tiers.length) {u : Thread} :
    letI out := compactOutput s.manifest.current.val s.contents t
    letI new := s.manifest.current.val.merged t
      (outputMeta s.manifest.current.val.nextTableId out)
    letI s' := (s.writeFile s.manifest.current.val.nextTableId out).setThread i u
    Ready s' new ∧ Follows s' new .tier := by
  rw [compactOutput_contents hf]
  have hc : compactTier s.manifest.current.val s.written t = some
      (s.manifest.current.val.merged t (outputMeta s.manifest.current.val.nextTableId
        (compactOutput s.manifest.current.val s.written t)),
      Function.update s.written s.manifest.current.val.nextTableId
        (compactOutput s.manifest.current.val s.written t)) :=
    if_pos ⟨ht, h.arranged.free⟩
  obtain ⟨above, inputs, below, out, hcomp⟩ := compactTier_eq_some hc
  obtain rfl := hcomp.written
  have hw := update_written hf (compactOutput s.manifest.current.val s.written t) _ (Or.inl rfl)
  have hold : ∀ x ∈ s.manifest.current.val.allTables, Function.update s.files
      s.manifest.current.val.nextTableId
        (some (compactOutput s.manifest.current.val s.written t)) x.id =
      some (Function.update s.written s.manifest.current.val.nextTableId
        (compactOutput s.manifest.current.val s.written t) x.id) := fun x hx => by
    rw [hf.update_ne _ _ (Or.inl rfl) x hx, hw x hx]
    exact hf.there _ (Or.inl rfl) x hx
  refine ⟨⟨hcomp.arranged h.arranged, hcomp.nextTableId, fun x hx => ?_⟩, ?_⟩
  · rw [← Version.mem_tablesNewestFirst, hcomp.after, List.mem_append, List.mem_append] at hx
    rcases hx with hx | hx | hx
    · exact hold x (hcomp.mem.mpr (Or.inl hx))
    · show Function.update s.files _ _ x.id = some (Function.update s.written _ _ x.id)
      rw [id_of_outputMeta (Option.mem_toList.mp hx), Function.update_self, Function.update_self]
    · exact hold x (hcomp.mem.mpr (Or.inr (Or.inr hx)))
  · have hcur : s.manifest.current.val.layers (Function.update s.written
        s.manifest.current.val.nextTableId (compactOutput s.manifest.current.val s.written t)) =
          s.manifest.current.val.layers s.written := layers_congr hw
    show Compacts (s.manifest.current.val.layers (Function.update s.written _ _)) _ ∨
      _ = s.manifest.current.val.layers (Function.update s.written _ _)
    rw [hcur]
    exact hcomp.compacts h.arranged.describes h.arranged.ordered

/-! ### What every thread knows -/

end Shared

open Shared in
/-- What a thread relies on. -/
def Thread.Fits (base : History Bytes InternalValue) (s : Shared)
    (B : History Bytes InternalValue) (n : Nat) : Thread → Prop
  | write (.appending e) => Claimed base s n e
  | write (.applying e) => Claimed base s n e ∧ e ∈ s.log
  | flush f => f.Fits s B
  | read r => s.Knows base B r
  | _ => True

namespace Thread.Fits

open Shared

variable {base B B' : History Bytes InternalValue} {s s' : Shared} {n n' : Nat} {t : Thread}

/-- Another thread does what is not noticed. -/
theorem same (h : t.Fits base s B n) (hs : Same s s') (hf : s'.files = s.files)
    (hw : s'.written = s.written) : t.Fits base s' B n := by
  cases t with
  | write w =>
    cases w with
    | appending e => exact Claimed.same h hs
    | applying e => exact ⟨Claimed.same h.1 hs, hs.log ▸ h.2⟩
    | _ => trivial
  | flush f => exact Flushing.Fits.same h hs hf hw
  | read r =>
    show r.Fits _ _ _ _
    rw [hs.applied, hw]
    exact h
  | _ => trivial

theorem claimed {e : Entry} (h : t.Fits base s B n) (hc : t.Carries e) : Claimed base s n e := by
  rcases hc with rfl | rfl
  · exact h
  · exact h.1

/-- **What a thread relies on stays true**, if it does not run a flush. -/
theorem mono (h : t.Fits base s B n) (hrun : ∀ f, t = .flush f → ¬ f.Running)
    (hclaim : ∀ e, t.Carries e → Claimed base s n e → Claimed base s' n' e)
    (hlog : ∀ e, t.Carries e → e ∈ s.log → e ∈ s'.log)
    (hg : Grows (instant base s.applied) (instant base s'.applied) s.applied.length
      s'.applied.length B B')
    (hT : ∀ v, t.pin = some v → ∀ table ∈ v.val.allTables,
      s'.written table.id = s.written table.id) :
    t.Fits base s' B' n' := by
  cases t with
  | write w =>
    cases w with
    | appending e => exact hclaim e (Or.inl rfl) h
    | applying e => exact ⟨hclaim e (Or.inr rfl) h.1, hlog e (Or.inr rfl) h.2⟩
    | _ => trivial
  | flush f =>
    cases f with
    | entering => trivial
    | quiescing => trivial
    | _ => exact absurd trivial (hrun _ rfl)
  | read r => exact Reading.Fits.mono h hg hT
  | _ => trivial

end Thread.Fits

end AccretionDb.Db
