import AccretionDb.Db.Threads.Files

/-! # Readers beside writers and flushes

What a reader knows at every point of its call (`Reading.Fits`).  Others only let the store
grow, and never take a file away that the reader needs, so what it knows stays true
(`Reading.Fits.mono`).
-/

namespace AccretionDb

open CrashLogic

/-- **The merge of two looks** picks the later of what they saw. -/
theorem Merged.picks {ss ss' : List (List Entry)} {out : List Entry} (h : Merged (ss ++ ss') out)
    (hs : Sorted ss) (hs' : Sorted ss') {xs ys : List Versions} (hx : Ordered xs) (hy : Ordered ys)
    (hxs : ∀ l, l ∈ xs ↔ ∃ s ∈ ss, l = layerOf s) (hys : ∀ l, l ∈ ys ↔ ∃ s ∈ ss', l = layerOf s)
    (key : Bytes) : Picks (lookup xs key) (lookup ys key) (layerOf out key) := by
  have hlatest : ∀ {v}, layerOf out key = some v → ∀ t ∈ ss ++ ss', ∀ w, layerOf t key = some w →
      w.seq ≤ v.seq := by
    intro v hv t ht w hw
    obtain ⟨i, s, _, _, hwin⟩ := h.wins _ (mem_of_layerOf hv)
    obtain ⟨j, hj⟩ := List.mem_iff_getElem?.mp ht
    rcases hwin j t w hj (mem_of_layerOf hw) with hlt | ⟨_, hseq⟩
    · exact absurd hlt (lt_irrefl _)
    · dsimp only at hseq
      omega
  refine ⟨fun v hv => ?_, fun w hw => ?_⟩
  · obtain ⟨i, s, hi, hmem, _⟩ := h.wins _ (mem_of_layerOf hv)
    have hmax : ∀ {ls : List Versions} {us : List (List Entry)}, us ⊆ ss ++ ss' →
        (∀ l, l ∈ ls ↔ ∃ s ∈ us, l = layerOf s) → ∀ l ∈ ls, ∀ w, l key = some w →
          Stamped.stamp w ≤ Stamped.stamp v := by
      intro ls us hsub hls l hl w hw
      obtain ⟨t, ht, rfl⟩ := (hls l).mp hl
      exact hlatest hv t (hsub ht) w hw
    rcases List.mem_append.mp (List.mem_of_getElem? hi) with hin | hin
    · refine Or.inl (hx.lookup_eq_of_max ((hxs _).mpr ⟨s, hin, rfl⟩)
        ((hs s hin).layerOf_eq_some.mpr hmem) (hmax (List.subset_append_left ..) hxs))
    · refine Or.inr (hy.lookup_eq_of_max ((hys _).mpr ⟨s, hin, rfl⟩)
        ((hs' s hin).layerOf_eq_some.mpr hmem) (hmax (List.subset_append_right ..) hys))
  · obtain ⟨t, ht, hwt⟩ : ∃ t ∈ ss ++ ss', layerOf t key = some w := by
      rcases hw with hw | hw
      · obtain ⟨l, hl, hlw⟩ := exists_of_lookup hw
        obtain ⟨t, ht, rfl⟩ := (hxs l).mp hl
        exact ⟨t, List.mem_append_left _ ht, hlw⟩
      · obtain ⟨l, hl, hlw⟩ := exists_of_lookup hw
        obtain ⟨t, ht, rfl⟩ := (hys l).mp hl
        exact ⟨t, List.mem_append_right _ ht, hlw⟩
    obtain ⟨v, hv⟩ := h.covers t ht _ (mem_of_layerOf hwt)
    have hout : layerOf out key = some v := h.ascending.layerOf_eq_some.mpr hv
    exact ⟨v, hout, hlatest hout t ht w hwt⟩

namespace Db

/-! ### What a reader knows -/

/-- The sources that a scan took from the memory, at an instant with the history `H`. -/
def Captured (H B : History Bytes InternalValue) (range : KeyRange) (memory : List (List Entry)) :
    Prop :=
  ∃ ms : List Versions, Ordered ms ∧ Looked H B (lookup ms) ∧ Sorted memory ∧
    ∀ l, l ∈ ms.map (restrict (rangeContains range)) ↔ ∃ s ∈ memory, l = layerOf s

/-- What a scan yields is in order and says of the keys of its range what `H'` says; only of
a key that is deleted in `H'`, and of which the tables that it read (`sources`) have nothing,
it may say what `H` says. -/
def Surveys (H H' : History Bytes InternalValue) (range : KeyRange) (sources : List (List Entry))
    (out : List (Bytes × Bytes)) : Prop :=
  Ascending out ∧ ∀ key, (rangeContains range key = false → layerOf out key = none) ∧
    (rangeContains range key = true → MeansAt H' key (layerOf out key) ∨
      MeansAt H key (layerOf out key) ∧ MeansAt H' key none ∧
        ∀ source ∈ sources, layerOf source key = none)

/-- What a reader knows when `n` writes are applied; `H` has the instants and `B` what the
tables show. -/
def Reading.Fits (H : Nat → History Bytes InternalValue) (n : Nat)
    (B : History Bytes InternalValue) (T : Contents) : Reading → Prop
  | getting _ since | scanning _ since => since ≤ n
  | missed key since => ∃ m, since ≤ m ∧ m ≤ n ∧ Dominates B (H m) key
  | walking key since version tables =>
    (∃ m, since ≤ m ∧ m ≤ n ∧ Answer (H m) key (lookup (tableLayers T tables) key)) ∧
      tables ⊆ version.val.allTables
  | got key since till answer => till ≤ n ∧ ∃ m, since ≤ m ∧ m ≤ till ∧ MeansAt (H m) key answer
  | captured range since looked memory =>
    since ≤ looked ∧ looked ≤ n ∧ Captured (H looked) B range memory
  | gathering range since looked pinned memory version sources tables =>
    (since ≤ looked ∧ looked ≤ pinned ∧ pinned ≤ n) ∧
      (∃ B', AtInstant H pinned B' ∧ Captured (H looked) B' range memory ∧
      (∀ key, Answer B' key (lookup (version.val.layers T) key)) ∧
      sources ++ tables.map (fun table => (T table.id).filter fun e => rangeContains range e.1) =
        version.val.scanSources T range) ∧ tables ⊆ version.val.allTables
  | scanned range since looked pinned till sources out =>
    (since ≤ looked ∧ pinned ≤ till ∧ till ≤ n) ∧ ∃ p, looked ≤ p ∧ p ≤ pinned ∧
      Surveys (H looked) (H p) range sources out
  | lost => False

/-- What happens while a reader is on its way. -/
structure Grows (H H' : Nat → History Bytes InternalValue) (n n' : Nat)
    (B B' : History Bytes InternalValue) : Prop where
  past : ∀ m ≤ n, H' m = H m
  le : n ≤ n'
  shelf : B ≤ B'

theorem Captured.mono {H B B' : History Bytes InternalValue} {range : KeyRange}
    {memory : List (List Entry)} (h : Captured H B range memory) (hle : B ≤ B') :
    Captured H B' range memory := by
  obtain ⟨ms, ho, hl, hrest⟩ := h
  exact ⟨ms, ho, hl.mono hle, hrest⟩

/-- **What a reader knows stays true.** -/
theorem Reading.Fits.mono {H H' : Nat → History Bytes InternalValue} {n n' : Nat}
    {B B' : History Bytes InternalValue} {T T' : Contents} {r : Reading} (h : r.Fits H n B T)
    (hg : Grows H H' n n' B B') (hT : ∀ v, r.pin = some v → ∀ table ∈ v.val.allTables,
      T' table.id = T table.id) : r.Fits H' n' B' T' := by
  cases r with
  | getting key since => exact Nat.le_trans h hg.le
  | scanning range since => exact Nat.le_trans h hg.le
  | missed key since =>
    obtain ⟨m, hs, hm, hd⟩ := h
    refine ⟨m, hs, hm.trans hg.le, fun v hv => ?_⟩
    rw [hg.past m hm] at hv
    obtain ⟨w, hw, hvw⟩ := hd v hv
    exact ⟨w, hg.shelf key w hw, hvw⟩
  | walking key since version tables =>
    obtain ⟨⟨m, hs, hm, ha⟩, hsub⟩ := h
    have hlayers : tableLayers T' tables = tableLayers T tables :=
      List.map_congr_left fun table ht => by rw [hT version rfl table (hsub ht)]
    refine ⟨⟨m, hs, hm.trans hg.le, ?_⟩, hsub⟩
    rw [hg.past m hm, hlayers]
    exact ha
  | got key since till answer =>
    obtain ⟨htill, m, hs, hm, ha⟩ := h
    refine ⟨htill.trans hg.le, m, hs, hm, ?_⟩
    rwa [hg.past m (hm.trans htill)]
  | captured range since looked memory =>
    obtain ⟨hs, hl, hc⟩ := h
    refine ⟨hs, hl.trans hg.le, ?_⟩
    rw [hg.past looked hl]
    exact hc.mono hg.shelf
  | gathering range since looked pinned memory version sources tables =>
    obtain ⟨⟨hs, hl, hp⟩, ⟨B₁, hi, hc, ha, heq⟩, hsub⟩ := h
    have hall := hT version rfl
    refine ⟨⟨hs, hl, hp.trans hg.le⟩, ⟨B₁, ?_, ?_, ?_, ?_⟩, hsub⟩
    · exact hi.extend (fun m hm => hg.past m (hm.trans hp)) (Nat.le_refl pinned)
    · rwa [hg.past looked (hl.trans hp)]
    · rwa [Shared.layers_congr hall]
    · have hsources : version.val.scanSources T' range = version.val.scanSources T range :=
        List.map_congr_left fun table ht => by rw [hall table ht]
      have hleft : tables.map (fun table => (T' table.id).filter fun e => rangeContains range e.1) =
          tables.map fun table => (T table.id).filter fun e => rangeContains range e.1 :=
        List.map_congr_left fun table ht => by rw [hall table (hsub ht)]
      rw [hsources, hleft]
      exact heq
  | scanned range since looked pinned till sources out =>
    obtain ⟨⟨hs, hp, htill⟩, p, hlp, hpp, hsur⟩ := h
    have hpn : p ≤ n := hpp.trans (hp.trans htill)
    refine ⟨⟨hs, hp, htill.trans hg.le⟩, p, hlp, hpp, ?_⟩
    rw [hg.past looked (hlp.trans hpn), hg.past p hpn]
    exact hsur
  | lost => exact h

namespace Shared

/-! ### The steps of a reader -/

variable {base B : History Bytes InternalValue} {s s' : Shared} {n i : Nat}

/-- What a step of a reader does to the others: it takes the current version, or drops the
one it holds. -/
structure ReadOnly (s s' : Shared) (i : Nat) (r r' : Reading) : Prop where
  before : s.threads i = .read r
  after : s'.threads = Function.update s.threads i (.read r')
  same : Same s s'
  files : s'.files = s.files
  written : s'.written = s.written
  pin : s'.manifest = s.manifest ∧ r'.pin = r.pin ∨
    s'.manifest = s.manifest.pin ∧ r.pin = none ∧ r'.pin = some s.manifest.current ∨
    ∃ v, s'.manifest = s.manifest.unpin v ∧ r.pin = some v ∧ r'.pin = none

theorem ReadMove.readOnly (h : ReadMove i s s') : ∃ r r', ReadOnly s s' i r r' := by
  have hsame : Same s s' := by
    cases h <;> exact ⟨rfl, rfl, rfl, rfl, rfl⟩
  cases h with
  | hit hi => exact ⟨_, _, hi, rfl, hsame, rfl, rfl, Or.inl ⟨rfl, rfl⟩⟩
  | miss hi => exact ⟨_, _, hi, rfl, hsame, rfl, rfl, Or.inl ⟨rfl, rfl⟩⟩
  | pin hi => exact ⟨_, _, hi, rfl, hsame, rfl, rfl, Or.inr (Or.inl ⟨rfl, rfl, rfl⟩)⟩
  | skip hi => exact ⟨_, _, hi, rfl, hsame, rfl, rfl, Or.inl ⟨rfl, rfl⟩⟩
  | found hi => exact ⟨_, _, hi, rfl, hsame, rfl, rfl, Or.inr (Or.inr ⟨_, rfl, rfl, rfl⟩)⟩
  | notHere hi => exact ⟨_, _, hi, rfl, hsame, rfl, rfl, Or.inl ⟨rfl, rfl⟩⟩
  | nowhere hi => exact ⟨_, _, hi, rfl, hsame, rfl, rfl, Or.inr (Or.inr ⟨_, rfl, rfl, rfl⟩)⟩
  | capture hi => exact ⟨_, _, hi, rfl, hsame, rfl, rfl, Or.inl ⟨rfl, rfl⟩⟩
  | pinScan hi => exact ⟨_, _, hi, rfl, hsame, rfl, rfl, Or.inr (Or.inl ⟨rfl, rfl, rfl⟩)⟩
  | gather hi => exact ⟨_, _, hi, rfl, hsame, rfl, rfl, Or.inl ⟨rfl, rfl⟩⟩
  | merge hi => exact ⟨_, _, hi, rfl, hsame, rfl, rfl, Or.inr (Or.inr ⟨_, rfl, rfl, rfl⟩)⟩
  | loseGet hi => exact ⟨_, _, hi, rfl, hsame, rfl, rfl, Or.inr (Or.inr ⟨_, rfl, rfl, rfl⟩)⟩
  | loseScan hi => exact ⟨_, _, hi, rfl, hsame, rfl, rfl, Or.inr (Or.inr ⟨_, rfl, rfl, rfl⟩)⟩

/-- What thread `i` knows as a reader. -/
def Knows (base : History Bytes InternalValue) (s : Shared) (B : History Bytes InternalValue)
    (r : Reading) : Prop :=
  r.Fits (instant base s.applied) s.applied.length B s.written

/-- **A scan captures the memory.** -/
theorem Store.captured (h : Store base s B n) {range : KeyRange} {memory : List (List Entry)}
    (hm : s.memtables.scanIters range = some memory) : Captured (s.total base) B range memory := by
  have hpanics : range.panics = false := by
    cases hp : range.panics with
    | false => rfl
    | true =>
      have hnone : s.memtables.active.rangeSnapshot range = none := if_pos hp
      rw [MemtableSet.scanIters, hnone] at hm
      cases hm
  rw [MemtableSet.scanIters_eq hpanics] at hm
  obtain rfl := Option.some.inj hm
  refine ⟨s.memtables.layers, h.stacked.ordered, h.stacked.looked, fun l hl => ?_, fun l => ?_⟩
  · obtain ⟨t, _, rfl⟩ := List.mem_map.mp hl
    exact t.ascending_snapshot.filter _
  · have hcut : ∀ t : Memtable, restrict (rangeContains range) t.versions =
        layerOf (t.snapshot.filter fun e => rangeContains range e.1) := fun t => by
      rw [layerOf_filter_key]
      exact congrArg _ (funext t.layerOf_snapshot).symm
    have hmem : ∀ l, l ∈ s.memtables.layers ↔
        ∃ t ∈ s.memtables.active :: s.memtables.frozen.map Arc.val, l = t.versions := by
      intro l
      simp only [MemtableSet.layers, List.mem_cons, List.mem_reverse, List.mem_map,
        exists_eq_or_imp]
      refine or_congr_right ⟨?_, ?_⟩
      · rintro ⟨t, ht, rfl⟩
        exact ⟨t.val, ⟨t, ht, rfl⟩, rfl⟩
      · rintro ⟨_, ⟨t, ht, rfl⟩, rfl⟩
        exact ⟨t, ht, rfl⟩
    simp only [List.mem_map, hmem]
    constructor
    · rintro ⟨_, ⟨t, ht, rfl⟩, rfl⟩
      exact ⟨_, ⟨t, ht, rfl⟩, hcut t⟩
    · rintro ⟨_, ⟨t, ht, rfl⟩, rfl⟩
      exact ⟨_, ⟨t, ht, rfl⟩, hcut t⟩

/-- **What a scan yields** from what it captured and from the tables. -/
theorem surveys {H : Nat → History Bytes InternalValue} {n m : Nat}
    {B : History Bytes InternalValue} {T : Contents} {v : Version} {range : KeyRange}
    {memory : List (List Entry)} (hmono : Monotone H) (hmn : m ≤ n) (hi : AtInstant H n B)
    (hc : Captured (H m) B range memory) (ha : ∀ key, Answer B key (lookup (v.layers T) key))
    (harr : Arranged v T) : ∃ p, m ≤ p ∧ p ≤ n ∧ Surveys (H m) (H p) range
      (v.scanSources T range) (MergeIterator.new (memory ++ v.scanSources T range)).live := by
  obtain ⟨ms, ho, hl, hsort, hms⟩ := hc
  have hsort' : Sorted (v.scanSources T range) := by
    intro s hs
    obtain ⟨table, ht, rfl⟩ := List.mem_map.mp hs
    exact (harr.describes table ht).ascending.filter _
  have hall : Sorted (memory ++ v.scanSources T range) := fun s hs =>
    (List.mem_append.mp hs).elim (hsort s) (hsort' s)
  have hmerged := Merged.toList hall
  obtain ⟨p, hmp, hpn, hpick⟩ := two_looks hi hmono hmn hl ha
  obtain ⟨hasc, hlive⟩ := Version.layerOf_live hmerged.ascending
  have hpicks := hmerged.picks hsort hsort' (ho.restrict (rangeContains range))
    (harr.ordered.restrict (rangeContains range)) hms fun _ => Version.mem_scan_layers
  refine ⟨p, hmp, hpn, hasc, fun key => ⟨fun hk => ?_, fun hk => ?_⟩⟩
  all_goals
    have hkey := hpicks key
    rw [lookup_restrict, lookup_restrict, restrict, restrict, hk] at hkey
    rw [MergeIterator.live, hlive]
  · rw [hkey.eq_none rfl rfl]
    rfl
  · refine (hpick key _ hkey).imp Answer.meansAt fun h => ⟨h.1.meansAt, h.2.1, fun s hs => ?_⟩
    -- no table has the key, so no part of one that was read
    obtain ⟨table, ht, rfl⟩ := List.mem_map.mp hs
    have hnone : layerOf (T table.id) key = none :=
      lookup_eq_none.mp h.2.2 _ (List.mem_map_of_mem (Version.mem_tablesNewestFirst.mpr ht))
    rw [layerOf_filter_key, restrict, hk]
    exact hnone

/-- **A step of a reader**: what it knows then. -/
theorem ReadMove.knows (hm : ReadMove i s s') (h : Store base s B n) (hf : Files s)
    {r r' : Reading} (hr : s.threads i = .read r) (hr' : s'.threads i = .read r')
    (hk : s.Knows base B r) : s'.Knows base B r' := by
  have hnow : instant base s.applied s.applied.length = s.total base := instant_length
  have hset : ∀ {x : Shared} {a : Reading}, x.threads i = .read r' →
      x.threads = Function.update s.threads i (.read a) → r' = a := by
    intro x a hx he
    rw [he, Function.update_self] at hx
    exact (Thread.read.inj hx).symm
  have halive : ∀ v, r.pin = some v → s.Alive v := fun v hv => Or.inr ⟨i, by rw [hr]; exact hv⟩
  cases hm with
  | hit hi hv =>
    obtain rfl := hset hr' rfl
    obtain rfl := Thread.read.inj (hr.symm.trans hi)
    refine ⟨Nat.le_refl _, _, hk, Nat.le_refl _, Or.inr ⟨_, ?_, rfl⟩⟩
    rw [MemtableSet.get_eq] at hv
    show CrashLogic.Newest (instant base s.applied s.applied.length) _ _
    rw [hnow]
    exact h.stacked.newest _ _ hv
  | miss hi hv =>
    obtain rfl := hset hr' rfl
    obtain rfl := Thread.read.inj (hr.symm.trans hi)
    refine ⟨_, hk, Nat.le_refl _, ?_⟩
    rw [MemtableSet.get_eq] at hv
    show Dominates B (instant base s.applied s.applied.length) _
    rw [hnow]
    exact h.stacked.rest _ hv
  | @pin key since hi =>
    obtain rfl := hset hr' rfl
    obtain rfl := Thread.read.inj (hr.symm.trans hi)
    obtain ⟨m, hs, hmn, hd⟩ := hk
    obtain ⟨p, hmp, hpn, ha⟩ := h.instants.head.answer instant_mono hmn hd
      (h.stacked.shelf.shows key)
    exact ⟨⟨p, hs.trans hmp, hpn, ha⟩, fun table ht => Version.mem_tablesNewestFirst.mp ht⟩
  | @skip key since version table tables hi hno =>
    obtain rfl := hset hr' rfl
    obtain rfl := Thread.read.inj (hr.symm.trans hi)
    obtain ⟨⟨m, hs, hmn, ha⟩, hsub⟩ := hk
    refine ⟨⟨m, hs, hmn, ?_⟩, fun x hx => hsub (List.mem_cons_of_mem _ hx)⟩
    -- a key outside the range of the table is not in it
    have hnone : layerOf (s.written table.id) key = none := by
      cases hv : layerOf (s.written table.id) key with
      | none => rfl
      | some v =>
        have hin := ((hf.arranged version (halive _ rfl)).describes table
          (hsub List.mem_cons_self)).keyInRange (mem_of_layerOf hv)
        rw [hno] at hin
        cases hin
    rwa [tableLayers, List.map_cons, lookup_cons_none hnone] at ha
  | @found key since version table tables es v hi hin hes hv =>
    obtain rfl := hset hr' rfl
    obtain rfl := Thread.read.inj (hr.symm.trans hi)
    obtain ⟨⟨m, hs, hmn, ha⟩, hsub⟩ := hk
    have hfile := hf.there version (halive _ rfl) table (hsub List.mem_cons_self)
    rw [hes] at hfile
    obtain rfl := Option.some.inj hfile
    rw [tableLayers, List.map_cons, lookup_cons, hv, Option.some_or] at ha
    exact ⟨Nat.le_refl _, m, hs, hmn, ha.meansAt⟩
  | @notHere key since version table tables es hi hin hes hv =>
    obtain rfl := hset hr' rfl
    obtain rfl := Thread.read.inj (hr.symm.trans hi)
    obtain ⟨⟨m, hs, hmn, ha⟩, hsub⟩ := hk
    have hfile := hf.there version (halive _ rfl) table (hsub List.mem_cons_self)
    rw [hes] at hfile
    obtain rfl := Option.some.inj hfile
    refine ⟨⟨m, hs, hmn, ?_⟩, fun x hx => hsub (List.mem_cons_of_mem _ hx)⟩
    rwa [tableLayers, List.map_cons, lookup_cons_none hv] at ha
  | nowhere hi =>
    obtain rfl := hset hr' rfl
    obtain rfl := Thread.read.inj (hr.symm.trans hi)
    obtain ⟨⟨m, hs, hmn, ha⟩, -⟩ := hk
    exact ⟨Nat.le_refl _, m, hs, hmn, ha.meansAt⟩
  | capture hi hmem =>
    obtain rfl := hset hr' rfl
    obtain rfl := Thread.read.inj (hr.symm.trans hi)
    refine ⟨hk, Nat.le_refl _, ?_⟩
    show Captured (instant base s.applied s.applied.length) _ _ _
    rw [hnow]
    exact h.captured hmem
  | pinScan hi =>
    obtain rfl := hset hr' rfl
    obtain rfl := Thread.read.inj (hr.symm.trans hi)
    obtain ⟨hs, hl, hc⟩ := hk
    exact ⟨⟨hs, hl, Nat.le_refl _⟩, ⟨B, h.instants.head, hc, h.stacked.shelf.shows, rfl⟩,
      fun _ ht => ht⟩
  | @gather range since looked pinned memory sources version table tables es hi hes =>
    obtain rfl := hset hr' rfl
    obtain rfl := Thread.read.inj (hr.symm.trans hi)
    obtain ⟨hwhen, ⟨B', hinst, hc, ha, heq⟩, hsub⟩ := hk
    have hfile := hf.there version (halive _ rfl) table (hsub List.mem_cons_self)
    rw [hes] at hfile
    obtain rfl := Option.some.inj hfile
    refine ⟨hwhen, ⟨B', hinst, hc, ha, ?_⟩, fun x hx => hsub (List.mem_cons_of_mem _ hx)⟩
    rw [List.append_assoc]
    exact heq
  | @merge range since looked pinned memory sources version hi =>
    obtain rfl := hset hr' rfl
    obtain rfl := Thread.read.inj (hr.symm.trans hi)
    obtain ⟨⟨hs, hl, hp⟩, ⟨B', hinst, hc, ha, heq⟩, -⟩ := hk
    rw [List.map_nil, List.append_nil] at heq
    obtain ⟨p, hlp, hpp, hsur⟩ := surveys instant_mono hl hinst hc ha
      (hf.arranged version (halive _ rfl))
    rw [heq]
    exact ⟨⟨hs, hp, Nat.le_refl _⟩, p, hlp, hpp, hsur⟩
  | @loseGet key since version table tables hi hin hes =>
    obtain rfl := Thread.read.inj (hr.symm.trans hi)
    have hfile := hf.there version (halive _ rfl) table (hk.2 List.mem_cons_self)
    rw [hes] at hfile
    cases hfile
  | @loseScan range since looked pinned memory sources version table tables hi hes =>
    obtain rfl := Thread.read.inj (hr.symm.trans hi)
    have hfile := hf.there version (halive _ rfl) table (hk.2.2 List.mem_cons_self)
    rw [hes] at hfile
    cases hfile

end Shared

end Db

end AccretionDb
