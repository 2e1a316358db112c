import AccretionDb.Db.Threads.Store

/-! # The files that are in use

A thread that holds a version is counted in the version's strong count, so no sweep forgets
it, and the files of the current version and of all that are held stay what they were when
they were written (`Files`).  No id is given to a second table.
-/

namespace AccretionDb.Db

open CrashLogic

/-! ### Counting -/

/-- At least so many are counted as there are. -/
def CountedIn (P : Nat → Prop) (n : Nat) : Prop :=
  ∃ S : Finset Nat, (∀ i, i ∈ S ↔ P i) ∧ S.card ≤ n

namespace CountedIn

variable {P P' : Nat → Prop} {n i : Nat}

theorem congr (h : CountedIn P n) (hp : ∀ j, P' j ↔ P j) : CountedIn P' n := by
  obtain ⟨S, hS, hn⟩ := h
  exact ⟨S, fun j => (hS j).trans (hp j).symm, hn⟩

theorem add (h : CountedIn P n) (hp : ∀ j, P' j ↔ j = i ∨ P j) : CountedIn P' (n + 1) := by
  obtain ⟨S, hS, hn⟩ := h
  refine ⟨insert i S, fun j => ?_, (Finset.card_insert_le i S).trans (Nat.succ_le_succ hn)⟩
  rw [Finset.mem_insert, hS, hp]

theorem remove (h : CountedIn P n) (hi : P i) (hp : ∀ j, P' j ↔ j ≠ i ∧ P j) :
    CountedIn P' (n - 1) := by
  obtain ⟨S, hS, hn⟩ := h
  refine ⟨S.erase i, fun j => ?_, ?_⟩
  · rw [Finset.mem_erase, hS, hp]
  · rw [Finset.card_erase_of_mem ((hS i).mpr hi)]
    exact Nat.sub_le_sub_right hn 1

theorem pos (h : CountedIn P n) (hi : P i) : 0 < n := by
  obtain ⟨S, hS, hn⟩ := h
  exact Nat.lt_of_lt_of_le (Finset.card_pos.mpr ⟨i, (hS i).mpr hi⟩) hn

end CountedIn

/-- The thread holds the version at this address. -/
def Thread.HoldsAt (t : Thread) (addr : Nat) : Prop := ∃ v, t.pin = some v ∧ v.addr = addr

namespace Shared

/-! ### Versions that are held -/

/-- The version is current, or a thread holds it. -/
def Alive (s : Shared) (v : Arc Version) : Prop :=
  v = s.manifest.current ∨ ∃ i, (s.threads i).pin = some v

/-- The manifest counts the threads that hold a version, and knows all versions that are
held. -/
structure Pinned (s : Shared) : Prop where
  counts : ∀ addr, CountedIn (fun i => (s.threads i).HoldsAt addr) (s.manifest.held.count addr)
  known : ∀ i v, (s.threads i).pin = some v → v ∈ s.manifest.versions

variable {s s' : Shared} {i : Nat} {t : Thread}

/-- Only thread `i` is another. -/
theorem threads_ne (ht : s'.threads = Function.update s.threads i t) {j : Nat} (hj : j ≠ i) :
    s'.threads j = s.threads j := by
  rw [ht, Function.update_of_ne hj]

theorem threads_eq (ht : s'.threads = Function.update s.threads i t) : s'.threads i = t := by
  rw [ht, Function.update_self]

namespace Pinned

theorem alive (h : Pinned s) {v : Arc Version} (hv : s.Alive v) : v ∈ s.manifest.versions := by
  rcases hv with rfl | ⟨i, hi⟩
  · exact List.mem_cons_self
  · exact h.known i v hi

/-- The thread holds what it held. -/
theorem keep (h : Pinned s) (ht : s'.threads = Function.update s.threads i t)
    (hp : t.pin = (s.threads i).pin) (hheld : s'.manifest.held = s.manifest.held)
    (hv : s.manifest.versions ⊆ s'.manifest.versions) : Pinned s' := by
  have hpin : ∀ j, (s'.threads j).pin = (s.threads j).pin := by
    intro j
    by_cases hj : j = i
    · rw [hj, threads_eq ht, hp]
    · rw [threads_ne ht hj]
  refine ⟨fun addr => ?_, fun j v hj => hv (h.known j v (hpin j ▸ hj))⟩
  rw [hheld]
  refine (h.counts addr).congr fun j => ?_
  rw [Thread.HoldsAt, hpin j]
  exact Iff.rfl

/-- The thread takes the current version. -/
theorem take (h : Pinned s) (ht : s'.threads = Function.update s.threads i t)
    (hp : (s.threads i).pin = none) (hp' : t.pin = some s.manifest.current)
    (hm : s'.manifest = s.manifest.pin) : Pinned s' := by
  refine ⟨fun addr => ?_, fun j v hj => ?_⟩
  · have hi : ¬ (s.threads i).HoldsAt addr := by
      rintro ⟨v, hv, _⟩
      rw [hp] at hv
      cases hv
    rw [hm]
    show CountedIn _ ((s.manifest.current.addr :: s.manifest.held).count addr)
    by_cases ha : s.manifest.current.addr = addr
    · rw [ha, List.count_cons_self]
      refine (h.counts addr).add (i := i) fun j => ?_
      by_cases hj : j = i
      · rw [hj, threads_eq ht]
        exact ⟨fun _ => Or.inl rfl, fun _ => ⟨_, hp', ha⟩⟩
      · rw [threads_ne ht hj]
        exact ⟨Or.inr, fun h => h.resolve_left hj⟩
    · rw [List.count_cons_of_ne ha]
      refine (h.counts addr).congr fun j => ?_
      by_cases hj : j = i
      · rw [hj, threads_eq ht]
        refine ⟨?_, fun h => absurd h hi⟩
        rintro ⟨v, hv, hva⟩
        rw [hp'] at hv
        obtain rfl := Option.some.inj hv
        exact absurd hva ha
      · rw [threads_ne ht hj]
  · rw [hm]
    by_cases hji : j = i
    · rw [hji, threads_eq ht, hp'] at hj
      obtain rfl := Option.some.inj hj
      exact List.mem_cons_self
    · rw [threads_ne ht hji] at hj
      exact h.known j v hj

/-- The thread drops what it held. -/
theorem give (h : Pinned s) (ht : s'.threads = Function.update s.threads i t) {v : Arc Version}
    (hp : (s.threads i).pin = some v) (hp' : t.pin = none)
    (hm : s'.manifest = s.manifest.unpin v) : Pinned s' := by
  have hnot : ∀ addr, ¬ t.HoldsAt addr := by
    rintro addr ⟨w, hw, _⟩
    rw [hp'] at hw
    cases hw
  refine ⟨fun addr => ?_, fun j w hj => ?_⟩
  · rw [hm]
    show CountedIn _ ((s.manifest.held.erase v.addr).count addr)
    by_cases ha : v.addr = addr
    · rw [ha, List.count_erase_self]
      refine (h.counts addr).remove (i := i) ⟨v, hp, ha⟩ fun j => ?_
      by_cases hj : j = i
      · rw [hj, threads_eq ht]
        exact ⟨fun h => absurd h (hnot addr), fun h => absurd rfl h.1⟩
      · rw [threads_ne ht hj]
        exact ⟨fun h => ⟨hj, h⟩, And.right⟩
    · rw [List.count_erase_of_ne (Ne.symm ha)]
      refine (h.counts addr).congr fun j => ?_
      by_cases hj : j = i
      · rw [hj, threads_eq ht]
        refine ⟨fun h => absurd h (hnot addr), ?_⟩
        rintro ⟨w, hw, hwa⟩
        rw [hp] at hw
        obtain rfl := Option.some.inj hw
        exact absurd hwa ha
      · rw [threads_ne ht hj]
  · rw [hm]
    by_cases hji : j = i
    · rw [hji, threads_eq ht, hp'] at hj
      cases hj
    · rw [threads_ne ht hji] at hj
      exact h.known j w hj

/-- **A sweep forgets no version that is held.** -/
theorem retain (h : Pinned s) (ht : s'.threads = Function.update s.threads i t)
    (hp : t.pin = (s.threads i).pin) (hm : s'.manifest = s.manifest.retain) : Pinned s' := by
  have hkeep : Pinned (s.setThread i t) := h.keep rfl hp rfl fun _ hv => hv
  have hsame : s'.threads = (s.setThread i t).threads := ht
  refine ⟨fun addr => ?_, fun j v hj => ?_⟩
  · rw [hsame, hm]
    exact hkeep.counts addr
  · rw [hsame] at hj
    have hv : v ∈ s.manifest.versions := hkeep.known j v hj
    have hheld : 0 < s.manifest.held.count v.addr := (hkeep.counts v.addr).pos ⟨v, hj, rfl⟩
    have hown : 0 < (s.manifest.versions.map Arc.addr).count v.addr :=
      List.count_pos_iff.mpr (List.mem_map_of_mem hv)
    rw [hm]
    rcases List.mem_cons.mp hv with rfl | hv
    · exact List.mem_cons_self
    · refine List.mem_cons_of_mem _ (List.mem_filter.mpr ⟨hv, decide_eq_true ?_⟩)
      rw [Manifest.strongCount]
      omega

end Pinned

/-! ### Their files -/

/-- The tables of all versions that are alive are there, with the entries that they were
written with; a sweep knows their ids; and the next id is behind them all. -/
structure Files (s : Shared) : Prop where
  arranged : ∀ v, s.Alive v → Arranged v.val s.written
  below : ∀ v, s.Alive v → ∀ table ∈ v.val.allTables,
    table.id < s.manifest.current.val.nextTableId
  there : ∀ v, s.Alive v → ∀ table ∈ v.val.allTables,
    s.files table.id = some (s.written table.id)
  live : ∀ i version liveIds purpose,
    s.threads i = .flush (.sweeping version liveIds purpose) →
      ∀ v, s.Alive v → ∀ table ∈ v.val.allTables, table.id ∈ liveIds

/-- The version that a flush is about to install. -/
structure Ready (s : Shared) (new : Version) : Prop where
  arranged : Arranged new s.written
  next : s.manifest.current.val.nextTableId ≤ new.nextTableId
  there : ∀ table ∈ new.allTables, s.files table.id = some (s.written table.id)

/-- What is alive was alive before, if the thread takes nothing but the current version. -/
theorem Alive.before (ht : s'.threads = Function.update s.threads i t)
    (hcur : s'.manifest.current = s.manifest.current)
    (hp : t.pin = none ∨ t.pin = (s.threads i).pin ∨ t.pin = some s.manifest.current)
    {v : Arc Version} (hv : s'.Alive v) : s.Alive v := by
  rcases hv with rfl | ⟨j, hj⟩
  · exact Or.inl hcur
  · by_cases hji : j = i
    · rw [hji, threads_eq ht] at hj
      rcases hp with hp | hp | hp
      · rw [hp] at hj
        cases hj
      · exact Or.inr ⟨i, hp ▸ hj⟩
      · rw [hp] at hj
        exact Or.inl (Option.some.inj hj).symm
    · rw [threads_ne ht hji] at hj
      exact Or.inr ⟨j, hj⟩

namespace Files

/-- The files stay, those at least that are in use. -/
theorem frame (h : Files s) (ht : s'.threads = Function.update s.threads i t)
    (hcur : s'.manifest.current = s.manifest.current)
    (hp : t.pin = none ∨ t.pin = (s.threads i).pin ∨ t.pin = some s.manifest.current)
    (hsweep : ∀ version liveIds purpose, t = .flush (.sweeping version liveIds purpose) →
      s.threads i = t)
    (hw : ∀ id < s.manifest.current.val.nextTableId, s'.written id = s.written id)
    (hf : ∀ v, s.Alive v → ∀ table ∈ v.val.allTables, s'.files table.id = s.files table.id) :
    Files s' where
  arranged v hv := by
    have hv' := hv.before ht hcur hp
    exact arranged_congr (h.arranged v hv') fun table htable => hw _ (h.below v hv' table htable)
  below v hv table htable := by
    rw [hcur]
    exact h.below v (hv.before ht hcur hp) table htable
  there v hv table htable := by
    have hv' := hv.before ht hcur hp
    rw [hf v hv' table htable, hw _ (h.below v hv' table htable)]
    exact h.there v hv' table htable
  live j version liveIds purpose hj v hv table htable := by
    refine h.live j version liveIds purpose ?_ v (hv.before ht hcur hp) table htable
    by_cases hji : j = i
    · rw [hji, threads_eq ht] at hj
      rw [hji, hsweep version liveIds purpose hj, hj]
    · rwa [threads_ne ht hji] at hj

/-- A file is made that no version has. -/
theorem update_ne (h : Files s) (x : Option (List Entry)) : ∀ v, s.Alive v →
    ∀ table ∈ v.val.allTables,
      Function.update s.files s.manifest.current.val.nextTableId x table.id = s.files table.id :=
  fun v hv table ht => Function.update_of_ne (Nat.ne_of_lt (h.below v hv table ht)) ..

/-- **A version is installed.**  Those that are held keep their files. -/
theorem install (h : Files s) {new : Version} (hr : Ready s new)
    (ht : s'.threads = Function.update s.threads i t) (hm : s'.manifest = s.manifest.adopt new)
    (hp : t.pin = (s.threads i).pin) (hf : s'.files = s.files) (hw : s'.written = s.written)
    (hsweep : ∀ j version liveIds purpose,
      s'.threads j ≠ .flush (.sweeping version liveIds purpose)) : Files s' := by
  have hcases : ∀ v, s'.Alive v → v.val = new ∨ s.Alive v := by
    rintro v (rfl | ⟨j, hj⟩)
    · rw [hm]
      exact Or.inl rfl
    · refine Or.inr (Or.inr ?_)
      by_cases hji : j = i
      · rw [hji, threads_eq ht, hp] at hj
        exact ⟨i, hj⟩
      · rw [threads_ne ht hji] at hj
        exact ⟨j, hj⟩
  have hnext : s'.manifest.current.val = new := by rw [hm]; rfl
  refine ⟨fun v hv => ?_, fun v hv table htable => ?_, fun v hv table htable => ?_,
    fun _ _ _ _ hj => (hsweep _ _ _ _ hj).elim⟩
  · rw [hw]
    rcases hcases v hv with he | hv
    · rw [he]
      exact hr.arranged
    · exact h.arranged v hv
  · rw [hnext]
    rcases hcases v hv with he | hv
    · exact hr.arranged.below table (he ▸ htable)
    · exact (h.below v hv table htable).trans_le hr.next
  · rw [hf, hw]
    rcases hcases v hv with he | hv
    · exact hr.there table (he ▸ htable)
    · exact h.there v hv table htable

/-- The look of `gc`: it finds the ids of all versions that are alive. -/
theorem collect (h : Files s) (hheld : Pinned s) {version : Arc Version} {purpose : Purpose}
    (ht : s'.threads = Function.update s.threads i
      (.flush (.sweeping version s.manifest.retain.liveIds purpose)))
    (hm : s'.manifest = s.manifest.retain) (hp : (s.threads i).pin = some version)
    (hf : s'.files = s.files) (hw : s'.written = s.written) : Files s' := by
  have hcur : s'.manifest.current = s.manifest.current := by rw [hm]; rfl
  have hpin : (Thread.flush (.sweeping version s.manifest.retain.liveIds purpose)).pin =
      (s.threads i).pin := hp.symm
  have hheld' : Pinned s' := hheld.retain ht hpin hm
  refine ⟨fun v hv => ?_, fun v hv table htable => ?_, fun v hv table htable => ?_,
    fun j version' liveIds purpose' hj v hv table htable => ?_⟩
  · rw [hw]
    exact h.arranged v (hv.before ht hcur (Or.inr (Or.inl hpin)))
  · rw [hcur]
    exact h.below v (hv.before ht hcur (Or.inr (Or.inl hpin))) table htable
  · rw [hf, hw]
    exact h.there v (hv.before ht hcur (Or.inr (Or.inl hpin))) table htable
  · by_cases hji : j = i
    · rw [hji, threads_eq ht] at hj
      obtain ⟨-, rfl, -⟩ := Flushing.sweeping.inj (Thread.flush.inj hj)
      have hmem := hheld'.alive hv
      rw [hm] at hmem
      exact List.mem_flatMap.mpr ⟨v, hmem, List.mem_map_of_mem htable⟩
    · rw [threads_ne ht hji] at hj
      exact h.live j version' liveIds purpose' hj v (hv.before ht hcur (Or.inr (Or.inl hpin))) table
        htable

end Files

end Shared

end AccretionDb.Db
