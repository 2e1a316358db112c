import AccretionDb.Compaction.Layout
import AccretionDb.Db.Store
import AccretionDb.Db.Threads.Locks
import AccretionDb.Lib.Instants

/-! # Memory, tables and log

What the threads share answers at every step for all that was applied (`Store.stacked`), and
the tables are the store as it was at some instant, also when the next frozen tables follow
(`Store.instants`).  Of what was applied nothing is outside the log and the tables, and what
is in both is not older in the log; so a replay of the log over the tables gives the newest
value of every key (`Store.replay`).

`base` is what the handle had before the threads started.
-/

namespace AccretionDb.Db

open CrashLogic

/-! ### Instants -/

/-- What was written when `n` of the writes had been applied. -/
def instant (base : History Bytes InternalValue) (applied : List Entry) (n : Nat) :
    History Bytes InternalValue := base ⊔ History.ofList (applied.take n)

section Instants

variable {base : History Bytes InternalValue} {applied : List Entry}

theorem instant_length : instant base applied applied.length = base ⊔ History.ofList applied := by
  rw [instant, List.take_length]

theorem instant_zero : instant base applied 0 = base := by
  rw [instant, List.take_zero, History.sup_ofList_nil]

theorem instant_mono : Monotone (instant base applied) := by
  intro m n hmn k v hv
  refine hv.imp_right fun hv => ?_
  exact (List.take_prefix_take_left hmn).subset hv

/-- What was written at an instant does not change any more. -/
theorem instant_append (more : List Entry) {n : Nat} (hn : n ≤ applied.length) :
    instant base (applied ++ more) n = instant base applied n := by
  rw [instant, instant, List.take_append_of_le_length hn]

end Instants

namespace Shared

/-! ### The store -/

/-- All that was written. -/
def total (base : History Bytes InternalValue) (s : Shared) : History Bytes InternalValue :=
  base ⊔ .ofList s.applied

/-- Memory over tables, beside the log.  The tables show `B`.  What is frozen or in a table
is older than `n`. -/
structure Store (base : History Bytes InternalValue) (s : Shared)
    (B : History Bytes InternalValue) (n : Nat) : Prop where
  stacked : Stacked (s.total base) B n s.memtables.layers
    (s.manifest.current.val.layers s.written)
  arranged : Arranged s.manifest.current.val s.written
  instants : Instants (instant base s.applied) s.applied.length B
    (s.memtables.frozen.map fun t => t.val.versions)
  frozen : ∀ t ∈ s.memtables.frozen, ∀ k v, t.val.versions k = some v → v.seq < n
  le : n ≤ s.write.nextSeq
  given : ∀ k v, s.total base k v → v.seq < s.write.nextSeq
  logged : ∀ e ∈ s.log, e.2.seq < s.write.nextSeq
  coherent : Coherent (.ofList s.log)
  safe : ∀ k v, s.total base k v → (k, v) ∈ s.log ∨ ∃ w, B k w ∧ Older v w
  late : ∀ e ∈ s.log, ∀ v, s.total base e.1 v → (e.1, v) ∈ s.log ∨ v.seq < e.2.seq

/-- The number of a write that is not applied is its own, and later than all that is frozen
or in a table, and for its key than all that is not in the log. -/
structure Claimed (base : History Bytes InternalValue) (s : Shared) (n : Nat)
    (e : Entry) : Prop where
  ge : n ≤ e.2.seq
  lt : e.2.seq < s.write.nextSeq
  fresh : ∀ k v, s.total base k v → v.seq ≠ e.2.seq
  late : ∀ v, s.total base e.1 v → (e.1, v) ∈ s.log ∨ v.seq < e.2.seq
  mine : ∀ v, (e.1, v) ∈ s.log → v.seq = e.2.seq → v = e.2

variable {base B : History Bytes InternalValue} {s s' : Shared} {n : Nat} {e : Entry}

/-- The threads do something else. -/
structure Same (s s' : Shared) : Prop where
  nextSeq : s'.write.nextSeq = s.write.nextSeq
  memtables : s'.memtables = s.memtables
  current : s'.manifest.current = s.manifest.current
  applied : s'.applied = s.applied
  log : s'.log = s.log

theorem Same.total_eq (h : Same s s') : s'.total base = s.total base := by
  rw [total, h.applied]
  rfl

theorem Claimed.same (h : Claimed base s n e) (hs : Same s s') : Claimed base s' n e where
  ge := h.ge
  lt := by
    rw [hs.nextSeq]
    exact h.lt
  fresh := by
    rw [hs.total_eq]
    exact h.fresh
  late := by
    rw [hs.total_eq, hs.log]
    exact h.late
  mine := by
    rw [hs.log]
    exact h.mine

/-! ### What a version needs of the files -/

/-- The same tables, with the same contents. -/
theorem layers_congr {v : Version} {T T' : Contents}
    (h : ∀ table ∈ v.allTables, T' table.id = T table.id) : v.layers T' = v.layers T :=
  List.map_congr_left fun table ht => by rw [h table (Version.mem_tablesNewestFirst.mp ht)]

theorem arranged_congr {v : Version} {T T' : Contents} (ha : Arranged v T)
    (h : ∀ table ∈ v.allTables, T' table.id = T table.id) : Arranged v T' where
  describes table ht := by
    rw [h table ht]
    exact ha.describes table ht
  below := ha.below
  ordered := by
    rw [layers_congr h]
    exact ha.ordered

namespace Store

theorem same (h : Store base s B n) (hs : Same s s')
    (hT : ∀ table ∈ s.manifest.current.val.allTables, s'.written table.id = s.written table.id) :
    Store base s' B n where
  stacked := by
    rw [hs.total_eq, hs.memtables, hs.current, layers_congr hT]
    exact h.stacked
  arranged := by
    rw [hs.current]
    exact arranged_congr h.arranged hT
  instants := by
    rw [hs.applied, hs.memtables]
    exact h.instants
  frozen := by
    rw [hs.memtables]
    exact h.frozen
  le := by
    rw [hs.nextSeq]
    exact h.le
  given := by
    rw [hs.total_eq, hs.nextSeq]
    exact h.given
  logged := by
    rw [hs.log, hs.nextSeq]
    exact h.logged
  coherent := by
    rw [hs.log]
    exact h.coherent
  safe := by
    rw [hs.total_eq, hs.log]
    exact h.safe
  late := by
    rw [hs.total_eq, hs.log]
    exact h.late

/-! ### Writes -/

/-- A number is given. -/
theorem claim (h : Store base s B n) {i : Nat} (key : Bytes) (kind : ValueKind)
    (hp : s.write.flushPending = false) (hroom : s.write.nextSeq + 1 < 2 ^ 64) :
    Store base (s.claim i key kind) B n ∧
      Claimed base (s.claim i key kind) n (key, ⟨s.write.nextSeq, kind⟩) ∧
      ∀ e, Claimed base s n e → Claimed base (s.claim i key kind) n e := by
  have hnext : (s.claim i key kind).write.nextSeq = s.write.nextSeq + 1 := by
    show s.write.claim.nextSeq = _
    rw [WriteState.claim, if_neg (by rw [hp]; exact Bool.false_ne_true)]
    exact Nat.mod_eq_of_lt hroom
  refine ⟨⟨h.stacked, h.arranged, h.instants, h.frozen, ?_, fun k v hv => ?_, fun e he => ?_,
    h.coherent, h.safe, h.late⟩, ⟨h.le, ?_, fun k v hv => ?_, fun v hv => ?_, fun v hv hseq => ?_⟩,
    fun e he => ⟨he.ge, ?_, he.fresh, he.late, he.mine⟩⟩
  · rw [hnext]
    exact Nat.le_succ_of_le h.le
  · rw [hnext]
    exact Nat.lt_succ_of_lt (h.given k v hv)
  · rw [hnext]
    exact Nat.lt_succ_of_lt (h.logged e he)
  · rw [hnext]
    exact Nat.lt_succ_self _
  · exact Nat.ne_of_lt (h.given k v hv)
  · exact Or.inr (h.given key v hv)
  · exact absurd hseq (Nat.ne_of_lt (h.logged _ hv))
  · rw [hnext]
    exact Nat.lt_succ_of_lt he.lt

/-- A record is logged. -/
theorem append (h : Store base s B n) (he : Claimed base s n e) {i : Nat} {t : Thread} :
    Store base ({ s with log := s.log ++ [e] }.setThread i t) B n ∧
      Claimed base ({ s with log := s.log ++ [e] }.setThread i t) n e ∧
      ∀ e', Claimed base s n e' → e'.2.seq ≠ e.2.seq →
        Claimed base ({ s with log := s.log ++ [e] }.setThread i t) n e' := by
  have hold : ∀ {x : Entry}, x ∈ s.log → x ∈ s.log ++ [e] := fun hx => List.mem_append_left _ hx
  refine ⟨⟨h.stacked, h.arranged, h.instants, h.frozen, h.le, h.given, fun x hx => ?_, ?_,
    fun k v hv => (h.safe k v hv).imp_left hold, fun x hx v hv => ?_⟩,
    ⟨he.ge, he.lt, he.fresh, fun v hv => (he.late v hv).imp_left hold, fun v hv hseq => ?_⟩,
    fun e' he' hne => ⟨he'.ge, he'.lt, he'.fresh, fun v hv => (he'.late v hv).imp_left hold,
      fun v hv hseq => ?_⟩⟩
  · rcases List.mem_append.mp hx with hx | hx
    · exact h.logged x hx
    · obtain rfl := List.mem_singleton.mp hx
      exact he.lt
  · intro k v w hv hw hseq
    rcases List.mem_append.mp hv with hv' | hv'
    · rcases List.mem_append.mp hw with hw' | hw'
      · exact h.coherent k v w hv' hw' hseq
      · obtain rfl := List.mem_singleton.mp hw'
        exact he.mine v hv' hseq
    · obtain rfl := List.mem_singleton.mp hv'
      rcases List.mem_append.mp hw with hw' | hw'
      · exact (he.mine w hw' hseq.symm).symm
      · exact (Prod.mk.inj (List.mem_singleton.mp hw')).2.symm
  · rcases List.mem_append.mp hx with hx | hx
    · exact (h.late x hx v hv).imp_left hold
    · obtain rfl := List.mem_singleton.mp hx
      exact (he.late v hv).imp_left hold
  · rcases List.mem_append.mp hv with hv | hv
    · exact he.mine v hv hseq
    · exact (Prod.mk.inj (List.mem_singleton.mp hv)).2
  · rcases List.mem_append.mp hv with hv | hv
    · exact he'.mine v hv hseq
    · rw [(Prod.mk.inj (List.mem_singleton.mp hv)).2] at hseq
      exact absurd hseq.symm hne

theorem total_apply {i : Nat} :
    (s.apply i e).total base = (s.total base).add e.1 e.2 := sup_ofList_concat ..

/-- **A write is applied.**  Unless a later one of its key came first, it is now the newest. -/
theorem stacked_apply (h : Store base s B n) (he : Claimed base s n e) {i : Nat} :
    Stacked ((s.apply i e).total base) B n (s.apply i e).memtables.layers
      (s.manifest.current.val.layers s.written) := by
  rw [total_apply]
  have hst := h.stacked
  by_cases hnew : ∃ u, s.memtables.active.versions e.1 = some u ∧ e.2.seq ≤ u.seq
  · obtain ⟨u, hu, hle⟩ := hnew
    have hmem := hst.within _ List.mem_cons_self e.1 u hu
    have hne := he.fresh e.1 u hmem
    have hskip : (s.apply i e).memtables.layers = s.memtables.layers := by
      show (s.memtables.insertIfNewer e.1 e.2).layers = _
      rw [MemtableSet.insertIfNewer, Memtable.insertIfNewer_of_le hu hle]
    rw [hskip]
    exact hst.skip hu (show e.2.seq < u.seq by omega)
  · have htop : ∀ u, s.memtables.active.versions e.1 = some u → u.seq < e.2.seq :=
      fun u hu => Nat.lt_of_not_le fun hle => hnew ⟨u, hu, hle⟩
    have hins : (s.apply i e).memtables.layers = _ := MemtableSet.layers_insertIfNewer htop
    rw [hins]
    refine hst.insert (hst.lt_of_top (Nat.le_refl n) (fun l hl k w hw => ?_) he.ge htop)
    obtain ⟨t, ht, rfl⟩ := List.mem_map.mp (List.mem_reverse.mp hl)
    exact h.frozen t ht k w hw

theorem apply (h : Store base s B n) (he : Claimed base s n e) (hlog : e ∈ s.log) {i : Nat} :
    Store base (s.apply i e) B n ∧ ∀ e', Claimed base s n e' → e'.2.seq ≠ e.2.seq →
      Claimed base (s.apply i e) n e' := by
  have hcase : ∀ k v, (s.apply i e).total base k v → s.total base k v ∨ (k, v) = e := by
    intro k v hv
    rw [total_apply] at hv
    exact hv.imp_right fun hv => Prod.ext hv.1 hv.2
  refine ⟨⟨h.stacked_apply he, h.arranged, ?_, h.frozen, h.le, fun k v hv => ?_, h.logged,
    h.coherent, fun k v hv => ?_, fun x hx v hv => ?_⟩,
    fun e' he' hne => ⟨he'.ge, he'.lt, fun k v hv => ?_, fun v hv => ?_, he'.mine⟩⟩
  · refine h.instants.extend (fun m hm => instant_append [e] hm) ?_
    rw [show (s.apply i e).applied = s.applied ++ [e] from rfl, List.length_append]
    exact Nat.le_add_right ..
  · rcases hcase k v hv with hv | rfl
    · exact h.given k v hv
    · exact he.lt
  · rcases hcase k v hv with hv | rfl
    · exact h.safe k v hv
    · exact Or.inl hlog
  · rcases hcase x.1 v hv with hv | heq
    · exact h.late x hx v hv
    · exact Or.inl (heq ▸ hlog)
  · rcases hcase k v hv with hv | rfl
    · exact he'.fresh k v hv
    · exact hne.symm
  · rcases hcase e'.1 v hv with hv | heq
    · exact he'.late v hv
    · exact Or.inl (heq ▸ hlog)

/-! ### Flushes -/

/-- **The active table is frozen**: now the store is what the tables will be. -/
theorem freeze (h : Store base s B n) {i : Nat} {t : Thread} :
    Store base ({ s with memtables := freezeActive s.memtables }.setThread i t) B
      s.write.nextSeq := by
  have hst := h.stacked.raise h.le
  have hbelow : ∀ t ∈ s.memtables.frozen, ∀ k v, t.val.versions k = some v →
      v.seq < s.write.nextSeq := fun t ht k v hv => (h.frozen t ht k v hv).trans_le h.le
  by_cases hpos : s.memtables.activeBytes > 0
  · have hfreeze : freezeActive s.memtables = s.memtables.freeze := if_pos hpos
    rw [hfreeze]
    refine ⟨?_, h.arranged, ?_, fun u hu k v hv => ?_, Nat.le_refl _, h.given, h.logged, h.coherent,
      h.safe, h.late⟩
    · show Stacked _ _ _ s.memtables.freeze.layers _
      rw [MemtableSet.layers_freeze]
      exact hst.fresh Memtable.versions_new
    · have hfrozen : s.memtables.freeze.frozen =
          s.memtables.frozen ++ [⟨s.memtables.nextAddr, s.memtables.active⟩] := rfl
      show Instants _ _ _ (s.memtables.freeze.frozen.map _)
      rw [hfrozen, List.map_append]
      have hlast : Stacked (instant base s.applied s.applied.length) B s.write.nextSeq
          (s.memtables.active.versions :: (s.memtables.frozen.map (·.val.versions)).reverse)
          (s.manifest.current.val.layers s.written) := by
        rw [instant_length]
        exact hst
      exact h.instants.freeze hlast
    · rcases List.mem_append.mp hu with hu | hu
      · exact hbelow u hu k v hv
      · obtain rfl := List.mem_singleton.mp hu
        exact h.given k v (hst.within _ List.mem_cons_self k v hv)
  · have hfreeze : freezeActive s.memtables = s.memtables := if_neg hpos
    rw [hfreeze]
    exact ⟨hst, h.arranged, h.instants, hbelow, Nat.le_refl _, h.given, h.logged, h.coherent,
      h.safe, h.late⟩

/-- **A version with the lowest frozen table in it** is installed. -/
theorem installTable (h : Store base s B n) {new : Version} {t : Arc Memtable}
    {rest : List (Arc Memtable)} (hfrozen : s.memtables.frozen = t :: rest)
    (ha : Arranged new s.written) (hlayers : new.layers s.written =
      t.val.versions :: s.manifest.current.val.layers s.written) {i : Nat} {u : Thread} :
    Store base ({ s with manifest := s.manifest.adopt new }.setThread i u)
      (B ⊔ graph t.val.versions) n := by
  refine ⟨?_, ha, ?_, h.frozen, h.le, h.given, h.logged, h.coherent, fun k v hv => ?_, h.late⟩
  · have hst := h.stacked
    rw [MemtableSet.layers_cons hfrozen] at hst
    show Stacked _ _ _ s.memtables.layers (new.layers s.written)
    rw [hlayers, MemtableSet.layers_cons hfrozen]
    exact hst.install (Nat.le_refl n) (h.frozen t (hfrozen ▸ List.mem_cons_self))
  · have hin := h.instants
    show Instants _ _ _ (s.memtables.frozen.map _)
    rw [hfrozen, List.map_cons] at hin ⊢
    exact hin.install
  · refine (h.safe k v hv).imp_right ?_
    rintro ⟨w, hw, hvw⟩
    exact ⟨w, Or.inl hw, hvw⟩

/-- A version in which a tier is compacted is installed. -/
theorem installTier (h : Store base s B n) {new : Version} (ha : Arranged new s.written)
    (hlayers : Compacts (s.manifest.current.val.layers s.written) (new.layers s.written) ∨
      new.layers s.written = s.manifest.current.val.layers s.written) {i : Nat} {u : Thread} :
    Store base ({ s with manifest := s.manifest.adopt new }.setThread i u) B n := by
  refine ⟨?_, ha, h.instants, h.frozen, h.le, h.given, h.logged, h.coherent, h.safe, h.late⟩
  show Stacked _ _ _ s.memtables.layers (new.layers s.written)
  rcases hlayers with hc | he
  · exact h.stacked.compacts hc
  · rw [he]
    exact h.stacked

/-- What is in the tables leaves the memory. -/
theorem discard (h : Store base s B n) {t : Arc Memtable} {rest : List (Arc Memtable)}
    (hfrozen : s.memtables.frozen = t :: rest) (ht : graph t.val.versions ≤ B) {i : Nat}
    {u : Thread} {v : Arc Version} :
    Store base ({ s with memtables := s.memtables.discardFrozen t }.drop (some v) |>.setThread i u)
      B n := by
  refine ⟨?_, h.arranged, ?_, fun x hx => ?_, h.le, h.given, h.logged, h.coherent, h.safe, h.late⟩
  · have hst := h.stacked
    rw [MemtableSet.layers_cons hfrozen] at hst
    show Stacked _ _ _ (s.memtables.discardFrozen t).layers _
    rw [MemtableSet.layers_discard hfrozen]
    exact hst.discard fun k v hv => ht k v hv
  · have hin := h.instants
    show Instants _ _ _ ((s.memtables.discardFrozen t).frozen.map _)
    rw [MemtableSet.frozen_discard hfrozen]
    rw [hfrozen, List.map_cons] at hin
    exact hin.discard ht
  · have hx' : x ∈ (s.memtables.discardFrozen t).frozen := hx
    rw [MemtableSet.frozen_discard hfrozen] at hx'
    exact h.frozen x (hfrozen ▸ List.mem_cons_of_mem t hx')

/-- With nothing in the memory, the tables have the newest of all that was applied. -/
theorem dominates (h : Store base s B n) (hfrozen : s.memtables.frozen = [])
    (hactive : ∀ k, s.memtables.active.versions k = none) (k : Bytes) :
    Dominates B (s.total base) k := by
  refine h.stacked.rest k ?_
  rw [MemtableSet.layers, hfrozen]
  exact lookup_cons_none (hactive k) _

/-- **The log is emptied** when nothing is left in the memory. -/
theorem reset (h : Store base s B n) (hfrozen : s.memtables.frozen = [])
    (hactive : ∀ k, s.memtables.active.versions k = none) {i : Nat} {u : Thread} :
    Store base ({ s with log := [] }.setThread i u) B n :=
  ⟨h.stacked, h.arranged, h.instants, h.frozen, h.le, h.given, nofun,
    fun _ _ _ hv => absurd hv List.not_mem_nil,
    fun k v hv => Or.inr (h.dominates hfrozen hactive k v hv), nofun⟩

/-! ### Replay -/

/-- **A replay of the log over the tables** gives, for every key, the newest value that was
applied or logged. -/
theorem replay (h : Store base s B n) {ts : List Versions} {B' : History Bytes InternalValue}
    {m : Nat} (hle : B ≤ B') (hB : B' ≤ s.total base) (hts : Settled m B' ts) :
    Shows ((s.log.foldl (fun t e => t.insertIfNewer e.1 e.2) Memtable.new).versions :: ts)
      (s.total base ⊔ .ofList s.log) := by
  have hcovers : Covers (.ofList s.log) B' (s.total base ⊔ .ofList s.log) := by
    refine ⟨fun k v hv => ⟨Or.inr hv.mem, fun w hw => ?_⟩, fun k hno v hv => ?_,
      fun _ _ hv => Or.inr hv, fun k v hv => Or.inl (hB k v hv)⟩
    · rcases hw with hw | hw
      · rcases h.late (k, v) hv.mem w hw with hlog | hlt
        · exact hv.max w hlog
        · exact Or.inl hlt
      · exact hv.max w hw
    · rcases hv with hv | hv
      · rcases h.safe k v hv with hlog | ⟨w, hw, hvw⟩
        · exact absurd hlog (hno v)
        · exact ⟨w, hle k w hw, hvw⟩
      · exact absurd hv (hno v)
  exact (Stacked.replay (Memtable.replays_new h.coherent) hcovers hts).shows

end Store

end Shared

end AccretionDb.Db
