import AccretionDb.Db.Survey
import AccretionDb.Db.Threads.Runs

/-! # What concurrent readers are told

The threads start on the handle of a client, between two of its calls.  In every interleaving
a get answers for one instant of its call (`get_at_an_instant`), a scan for one instant between
its two looks but for keys that were deleted there and of which the tables have nothing any
more (`scan_at_an_instant`), no file goes
that a reader needs (`files_stay`), and at every moment the log and the tables have all that
was applied (`log_and_tables`), the layers keep their order (`layers_in_order`), and the log
is emptied only when the tables can do without it (`log_not_needed`).
-/

namespace AccretionDb.Db

open CrashLogic

namespace Shared

/-- What a reader that returned knows. -/
theorem Inv.knows {base : History Bytes InternalValue} {s : Shared} (h : Inv base s) {i : Nat}
    {r : Reading} (hi : s.threads i = .read r) : ∃ B, s.Knows base B r := by
  obtain ⟨B, n, -, hfits⟩ := h.store
  have hfit := hfits i
  rw [hi] at hfit
  exact ⟨B, hfit⟩

section Hashed

variable [TableHashing] {cfg : Config}

/-! ### The start -/

/-- The threads start on the handle of a client, between two of its calls.  `base` are the
client's writes. -/
inductive Starts (cfg : Config) (w : World) : History Bytes InternalValue → Shared → Prop
  | intro {db : Db} {A : History Bytes InternalValue} {since : List Entry} {L : Wal.Layout}
      {T : Contents} (hdb : w.db = some db) (hwritten : Written w.writes (A ⊔ .ofList since))
      (h : Stands cfg A since L T (w.fs.disk, db)) (hidle : db.write.inFlight = 0)
      (hnoFlush : db.write.flushPending = false) :
      Starts cfg w (A ⊔ .ofList since)
        (start db since T fun id => (w.fs.disk (tablePath cfg.dir id)).live.isSome)

/-- Every handle that a client can come to may be shared. -/
theorem exists_starts {w : World} (h : World.Visited cfg w) {db : Db} (hdb : w.db = some db) :
    ∃ base since T, Starts cfg w base
      (start db since T fun id => (w.fs.disk (tablePath cfg.dir id)).live.isSome) := by
  obtain ⟨-, hh⟩ := h.consistent
  rw [World.Holds, hdb] at hh
  obtain ⟨H, hH, hq⟩ := hh
  obtain ⟨A, since, L, T, rfl, hst⟩ := hq.sound
  exact ⟨_, since, T, .intro hdb hH hst hq.idle hq.noFlush⟩

/-- **The invariant holds at the start.** -/
theorem Starts.inv {w : World} {base : History Bytes InternalValue} {s : Shared}
    (h : Starts cfg w base s) : Inv base s := by
  obtain ⟨hdb, hwritten, hst, hidle, hnoFlush⟩ := h
  rename_i db A since L T
  let s := start db since T fun id => (w.fs.disk (tablePath cfg.dir id)).live.isSome
  have hreads := Shelf.mem hst.shelf
  obtain ⟨B, hA, hstack⟩ := hreads.stacked
  have htotal : s.total (A ⊔ .ofList since) = A ⊔ .ofList since := History.sup_ofList_nil _
  have halive : ∀ v, s.Alive v → v = db.manifest.current := by
    rintro v (rfl | ⟨i, hi⟩)
    · rfl
    · cases hi
  have hbelow : ∀ k v, B k v → v.seq < db.write.nextSeq := fun k v hv =>
    hst.claimed k v (hstack.le k v hv)
  refine ⟨.start hidle since T _, ⟨fun addr => ⟨∅, fun i => ?_, Nat.zero_le _⟩, fun i v hi => ?_⟩,
    ⟨fun v hv => ?_, fun v hv table ht => ?_, fun v hv table ht => ?_, fun i _ _ _ hi => ?_⟩,
    fun i j e e' hi => ?_, B, db.write.nextSeq, ⟨?_, hreads.arranged, ?_, fun t ht k v hv => ?_,
      Nat.le_refl _, ?_, fun e he => ?_, hst.later.rising.coherent, fun k v hv => ?_,
      fun e he v hv => ?_⟩,
    fun i => trivial⟩
  · refine ⟨fun h => absurd h (Finset.notMem_empty i), ?_⟩
    rintro ⟨v, hv, _⟩
    cases hv
  · cases hi
  · rw [halive v hv]
    exact hreads.arranged
  · rw [halive v hv] at ht
    exact hreads.arranged.below table ht
  · rw [halive v hv] at ht
    have hsome := hreads.kept.isSome (List.mem_map_of_mem ht)
    exact if_pos hsome
  · cases hi
  · rcases hi with hi | hi <;> cases hi
  · rw [htotal]
    exact { hstack with shelf := { hstack.shelf with below := hbelow } }
  · refine .of_le ?_ fun f hf => ?_
    · rw [instant_zero]
      exact hstack.le
    · obtain ⟨t, ht, rfl⟩ := List.mem_map.mp hf
      rw [instant_zero]
      exact hstack.within _ (List.mem_cons_of_mem _ (List.mem_reverse.mpr (List.mem_map_of_mem ht)))
  · exact hst.claimed k v (hstack.within _ (List.mem_cons_of_mem _ (List.mem_reverse.mpr
      (List.mem_map_of_mem ht))) k v hv)
  · rw [htotal]
    exact hst.claimed
  · exact hst.claimed e.1 e.2 (Or.inr he)
  · rw [htotal] at hv
    exact hv.symm.imp_right fun hv => ⟨v, hA k v hv, Older.refl v⟩
  · rw [htotal] at hv
    rcases hv with hv | hv
    · rcases hst.later.later e.1 v e.2 hv he with hlt | rfl
      · exact Or.inr hlt
      · exact Or.inl he
    · exact Or.inl hv

variable {w : World} {base : History Bytes InternalValue} {s₀ s : Shared}

/-- What is in the log at the start is among the client's writes. -/
theorem Starts.accounted (h : Starts cfg w base s₀) : Accounted base s₀ := by
  obtain ⟨-, -, -, -, -⟩ := h
  exact fun e he => Or.inl (Or.inl (Or.inr he))

/-- The invariant holds whenever threads share a handle. -/
theorem Starts.reached (h : Starts cfg w base s₀) {fanout : Nat} (hrun : Runs fanout s₀ s) :
    Inv base s := h.inv.runs hrun

/-! ### Readers -/

/-- **A get answers for one instant of its call**, whatever the writers, the flushes and the
compactions do meanwhile: with the value that has the largest sequence number of all that
were applied by then. -/
theorem get_at_an_instant (h : Starts cfg w base s₀) {fanout : Nat} (hrun : Runs fanout s₀ s)
    {i since till : Nat} {key : Bytes} {answer : Option Bytes}
    (hi : s.threads i = .read (.got key since till answer)) :
    till ≤ s.applied.length ∧
      ∃ m, since ≤ m ∧ m ≤ till ∧ MeansAt (instant base s.applied m) key answer := by
  obtain ⟨B, hk⟩ := (h.reached hrun).knows hi
  exact hk

/-- **A scan yields in order what the keys of its range have at one instant between its two
looks**, at the memtables when `looked` writes were applied and at the current version when
`pinned` were.  Only a key that is deleted at that instant, and of which the tables that it
read have neither a value nor the tombstone, may have the value of the first look. -/
theorem scan_at_an_instant (h : Starts cfg w base s₀) {fanout : Nat} (hrun : Runs fanout s₀ s)
    {i since looked pinned till : Nat} {range : KeyRange} {sources : List (List Entry)}
    {out : List (Bytes × Bytes)}
    (hi : s.threads i = .read (.scanned range since looked pinned till sources out)) :
    (since ≤ looked ∧ pinned ≤ till ∧ till ≤ s.applied.length) ∧
      ∃ p, looked ≤ p ∧ p ≤ pinned ∧
        Surveys (instant base s.applied looked) (instant base s.applied p) range sources out := by
  obtain ⟨B, hk⟩ := (h.reached hrun).knows hi
  exact hk

/-! ### Files -/

/-- **No file goes that a reader needs.**  No reader meets a table without a file; the tables
of the current version and of every version that is held are there as they were written; and
no step writes to a table once its id is taken, so a version answers the same for ever. -/
theorem files_stay (h : Starts cfg w base s₀) {fanout : Nat} (hrun : Runs fanout s₀ s) :
    (∀ i, s.threads i ≠ .read .lost) ∧
      (∀ v, s.Alive v → ∀ table ∈ v.val.allTables, s.files table.id = some (s.written table.id) ∧
        table.Describes (s.written table.id)) ∧
      ∀ s', Runs fanout s s' → ∀ v, s.Alive v → ∀ key range,
        v.val.get s'.written key = v.val.get s.written key ∧
        v.val.scan s'.written range = v.val.scan s.written range := by
  have hinv := h.reached hrun
  refine ⟨fun i hi => ?_, fun v hv table ht => ?_, fun s' hrun' v hv key range => ?_⟩
  · obtain ⟨B, hk⟩ := hinv.knows hi
    exact hk
  · exact ⟨hinv.files.there v hv table ht, (hinv.files.arranged v hv).describes table ht⟩
  · have hsame : ∀ table ∈ v.val.allTables, s'.written table.id = s.written table.id :=
      fun table ht => (hinv.runs_extends hrun').written _ (hinv.files.below v hv table ht)
    have harr := hinv.files.arranged v hv
    refine ⟨?_, ?_⟩
    · rw [Version.get, Version.get, Version.find_eq (arranged_congr harr hsame).describes,
        Version.find_eq harr.describes, layers_congr hsame]
    · have hsources : v.val.scanSources s'.written range = v.val.scanSources s.written range :=
        List.map_congr_left fun table ht => by rw [hsame table ht]
      rw [Version.scan, Version.scan, hsources]

/-! ### Log and tables -/

/-- The version is current, or a flush is installing it. -/
def OnDisk (s : Shared) (v : Version) : Prop :=
  v = s.manifest.current.val ∨
    ∃ i version purpose, s.threads i = .flush (.installing version v purpose)

/-- **At every moment the log and the tables have all that was applied.**  The tables of the
current version, and of one that is being installed, have their files, and the log replayed
over either gives for every key the newest value that was applied or logged. -/
theorem log_and_tables (h : Starts cfg w base s₀) {fanout : Nat} (hrun : Runs fanout s₀ s)
    {v : Version} (hv : s.OnDisk v) :
    (∀ table ∈ v.allTables, s.files table.id = some (s.written table.id)) ∧
      Shows ((s.log.foldl (fun t e => t.insertIfNewer e.1 e.2) Memtable.new).versions ::
        v.layers s.written) (s.total base ⊔ .ofList s.log) := by
  have hinv := h.reached hrun
  rcases hv with rfl | ⟨i, version, purpose, hi⟩
  · obtain ⟨B, n, hst, -⟩ := hinv.store
    exact ⟨hinv.files.there _ (Or.inl rfl), hst.replay (le_refl B) hst.stacked.le hst.stacked.shelf⟩
  · obtain ⟨B, n, hst, hready, hfollows⟩ := hinv.relies hi
    refine ⟨hready.there, ?_⟩
    cases purpose with
    | table t rest =>
      obtain ⟨hleft, hlayers⟩ := hfollows
      have hnext := hst.installTable hleft.frozen hready.arranged hlayers (i := i) (u := .idle)
      have hshelf : Settled n (B ⊔ graph t.val.versions) (v.layers s.written) := hnext.stacked.shelf
      exact hst.replay le_sup_left hnext.stacked.le hshelf
    | tier =>
      have hnext := hst.installTier hready.arranged hfollows (i := i) (u := .idle)
      have hshelf : Settled n B (v.layers s.written) := hnext.stacked.shelf
      exact hst.replay (le_refl B) hst.stacked.le hshelf

/-- **The order of the layers holds at every moment.**  From the active memtable down to the
oldest table the versions of a key get older, and all of them were applied. -/
theorem layers_in_order (h : Starts cfg w base s₀) {fanout : Nat} (hrun : Runs fanout s₀ s) :
    letI layers := s.memtables.layers ++ s.manifest.current.val.layers s.written
    Ordered layers ∧ Within layers (s.total base) ∧
      ∀ key v, s.total base key v → v.seq < s.write.nextSeq := by
  obtain ⟨B, n, hst, -⟩ := (h.reached hrun).store
  exact ⟨hst.stacked.stack_ordered, hst.stacked.stack_within, hst.given⟩

/-- **The log is emptied only when nothing needs it.**  When a flush comes to that, all that
is logged is applied, and the tables alone have the newest value of every key. -/
theorem log_not_needed (h : Starts cfg w base s₀) {fanout : Nat} (hrun : Runs fanout s₀ s)
    {i : Nat} (hi : s.threads i = .flush .resetting) :
    (∀ e ∈ s.log, s.total base e.1 e.2) ∧
      Shows (s.manifest.current.val.layers s.written) (s.total base) := by
  have hinv := h.reached hrun
  refine ⟨hinv.applied (h.accounted.runs hrun) hi trivial, ?_⟩
  obtain ⟨B, n, hst, hfits⟩ := hinv.store
  have hleft := hfits i
  rw [hi] at hleft
  have hleft : Left s [] := hleft
  have hnone : ∀ key, lookup s.memtables.layers key = none := by
    intro key
    rw [← MemtableSet.get_eq, MemtableSet.get_of_frozen_nil hleft.frozen]
    exact hleft.active key
  exact (hst.stacked.settled hnone).shows

end Hashed

/-! ### A run -/

attribute [local instance] TableHashing.emptyKey

/-- A new database. -/
theorem opened_once : ∃ w db, World.Visited demoConfig w ∧ w.db = some db ∧
    db.write = ⟨1, 0, false⟩ ∧ db.manifest.current.val = .empty ∧ db.manifest.obsolete = [] ∧
    (∀ id, (w.fs.disk (tablePath demoConfig.dir id)).live = none) ∧
    letI mem := db.memtables.insertIfNewer [] ⟨1, .value []⟩
    mem.get [] = some ⟨1, .value []⟩ ∧ mem.isFull = false ∧
      (freezeActive mem).frozen.map (fun t => t.val.snapshot) = [[([], ⟨1, .value []⟩)]] := by
  have hopened : (afterOpen demoConfig []).isSome = true := by decide +kernel
  have hclock : (afterOpen demoConfig []).map (fun x => (x.2.write.nextSeq, x.2.write.inFlight,
      x.2.write.flushPending, x.2.manifest.current.val, x.2.manifest.obsolete.length)) =
      some (1, 0, false, .empty, 0) := by
    decide +kernel
  have hget : (afterOpen demoConfig []).map (fun x =>
      (x.2.memtables.insertIfNewer [] ⟨1, .value []⟩).get []) = some (some ⟨1, .value []⟩) := by
    decide +kernel
  have hfull : (afterOpen demoConfig []).map (fun x =>
      (x.2.memtables.insertIfNewer [] ⟨1, .value []⟩).isFull) = some false := by
    decide +kernel
  have hfrozen : (afterOpen demoConfig []).map (fun x =>
      (freezeActive (x.2.memtables.insertIfNewer [] ⟨1, .value []⟩)).frozen.map
        fun t => t.val.snapshot) = some [[([], ⟨1, .value []⟩)]] := by
    decide +kernel
  obtain ⟨x, hx⟩ := Option.isSome_iff_exists.mp hopened
  obtain ⟨fs, db, hopen, hall⟩ := open_of_openThen hx
  have hafter : afterOpen demoConfig [] = some (fs, db) := openThen_eq hopen
  rw [hafter] at hclock hget hfull hfrozen
  simp only [Option.map_some, Option.some.injEq, Prod.mk.injEq] at hclock
  obtain ⟨hseq, hflight, hpending, hempty, hobsolete⟩ := hclock
  have hreach : World.Reachable demoConfig (Fits demoConfig) ⟨fs, some db, []⟩ :=
    ⟨_, .single (.opened hopen)⟩
  refine ⟨_, db, Or.inl hreach, rfl, ?_, hempty, List.eq_nil_of_length_eq_zero hobsolete,
    fun id => ?_, Option.some.inj hget, Option.some.inj hfull, Option.some.inj hfrozen⟩
  · cases hw : db.write with
    | mk nextSeq inFlight flushPending =>
      rw [hw] at hseq hflight hpending
      obtain rfl := hseq
      obtain rfl := hflight
      obtain rfl := hpending
      rfl
  · obtain ⟨fs', wal, hopen', -, -, hsame⟩ := exists_open_new demoConfig fun _ => 0
    obtain ⟨-, hfs⟩ := Prod.mk.inj (Option.some.inj (hopen.symm.trans hopen'))
    obtain ⟨rfl, -⟩ := Prod.mk.inj hfs
    exact hsame (tablePath demoConfig.dir id) trivial

/-- On a new database thread 1 puts the empty key while thread 0 gets it; thread 2 starts a
scan, thread 1 a flush, and the scan finds the new table.  The flush goes on to where it
empties the log. -/
theorem three_threads : ∃ w base s₀ s sources out, Starts demoConfig w base s₀ ∧ Runs 4 s₀ s ∧
    s.threads 0 = .read (.got [] 0 1 (some [])) ∧
    s.threads 2 = .read (.scanned .full 1 1 1 1 sources out) ∧
    s.threads 1 = .flush .resetting ∧ s.manifest.current.val.allTables.length = 1 ∧
    s.applied.length = 1 ∧ s.log ≠ [] := by
  obtain ⟨w, ⟨wal, mem, ⟨⟨addr, v⟩, obsolete, held, nextAddr⟩, readers, ws⟩, hv, hdb, hws, hempty,
    hobsolete, hlive, hget, hfull, hfrozen⟩ := opened_once
  obtain ⟨base, since, T, h₀⟩ := exists_starts hv hdb
  change ws = _ at hws
  change v = _ at hempty
  change obsolete = _ at hobsolete
  subst hws hempty hobsolete
  obtain ⟨t, hfrozen', hsnap⟩ : ∃ t, (freezeActive (mem.insertIfNewer []
      ⟨1, .value []⟩)).frozen = [t] ∧ t.val.snapshot = [([], ⟨1, .value []⟩)] := by
    change (freezeActive (mem.insertIfNewer [] ⟨1, .value []⟩)).frozen.map _ = _ at hfrozen
    cases hl : (freezeActive (mem.insertIfNewer [] ⟨1, .value []⟩)).frozen with
    | nil =>
      rw [hl] at hfrozen
      cases hfrozen
    | cons t rest =>
      rw [hl] at hfrozen
      obtain ⟨hsnap, hrest⟩ := List.cons.inj hfrozen
      rw [List.map_eq_nil_iff.mp hrest]
      exact ⟨t, rfl, hsnap⟩
  let s₀ := start ⟨wal, mem, ⟨⟨addr, .empty⟩, [], held, nextAddr⟩, readers,
    ⟨1, 0, false⟩⟩ since T fun id =>
    (w.fs.disk (tablePath demoConfig.dir id)).live.isSome
  let e : Entry := ([], ⟨1, .value []⟩)
  -- the put is applied while the get is under way
  let s₁ := s₀.setThread 0 (.read (.getting [] 0))
  have r₁ : Runs 4 s₀ s₁ := .single (.callGet [] trivial)
  let s₂ := s₁.setThread 1 (.write (.claiming [] (.value [])))
  have r₂ : Runs 4 s₀ s₂ := r₁.tail (.callWrite [] (.value []) trivial)
  let s₃ := s₂.claim 1 [] (.value [])
  have r₃ : Runs 4 s₀ s₃ := r₂.tail (.write (.claim rfl rfl rfl (show 1 + 1 < 2 ^ 64 by decide)))
  let s₄ := { s₃ with log := s₃.log ++ [e] }.setThread 1 (.write (.applying e))
  have r₄ : Runs 4 s₀ s₄ := r₃.tail (.write (.appendOk rfl))
  let s₅ := s₄.apply 1 e
  have r₅ : Runs 4 s₀ s₅ := r₄.tail (.write (.apply rfl))
  let s₆ := s₅.setThread 0 (.read (.got [] 0 1 (some [])))
  have r₆ : Runs 4 s₀ s₆ := r₅.tail (.read (.hit (v := ⟨1, .value []⟩) rfl hget))
  -- the scan looks at the memory
  let s₇ := s₆.setThread 2 (.read (.scanning .full 1))
  have r₇ : Runs 4 s₀ s₇ := r₆.tail (.callScan .full trivial)
  obtain ⟨memory, hmemory⟩ : ∃ memory, s₇.memtables.scanIters .full = some memory :=
    ⟨_, MemtableSet.scanIters_eq rfl _⟩
  let s₈ := s₇.setThread 2 (.read (.captured .full 1 1 memory))
  have r₈ : Runs 4 s₀ s₈ := r₇.tail (.read (.capture rfl hmemory))
  -- the put returns, and the table goes to a file
  let s₉ := { s₈ with write := s₈.write.unmark, holder := some 1 }.setThread 1 (.write .checking)
  have r₉ : Runs 4 s₀ s₉ := r₈.tail (.write (.finish rfl rfl))
  let s₁₀ := { s₉ with holder := none }.setThread 1 (.returned true)
  have r₁₀ : Runs 4 s₀ s₁₀ := r₉.tail (.write (.pass rfl hfull))
  let s₁₁ := s₁₀.setThread 1 (.flush .entering)
  have r₁₁ : Runs 4 s₀ s₁₁ := r₁₀.tail (.callFlush trivial)
  let s₁₂ := { s₁₁ with write := s₁₁.write.setPending true, holder := some 1 }.setThread 1
    (.flush .freezing)
  have r₁₂ : Runs 4 s₀ s₁₂ := r₁₁.tail (.flush (.enter rfl rfl))
  let s₁₃ := { s₁₂ with memtables := freezeActive s₁₂.memtables }.setThread 1
    (.flush (.looping (freezeActive s₁₂.memtables).frozen))
  have r₁₃ : Runs 4 s₀ s₁₃ := r₁₂.tail (.flush (.freeze rfl))
  let s₁₄ := { s₁₃ with manifest := s₁₃.manifest.pin }.setThread 1
    (.flush (.writing s₁₃.manifest.current t []))
  have r₁₄ : Runs 4 s₀ s₁₄ := r₁₃.tail (.flush (.next
    (congrArg (fun ts => Thread.flush (.looping ts)) hfrozen')))
  let table := tableMeta 1 e []
  let s₁₅ := (s₁₄.writeFile 1 t.val.snapshot).setThread 1 (.flush (.installing ⟨addr, .empty⟩
    (Version.empty.flushed table 2) (.table t [])))
  have hfree : s₁₄.files 1 = none := by
    refine if_neg ?_
    show ¬ (w.fs.disk (tablePath demoConfig.dir 1)).live.isSome = true
    rw [hlive 1]
    exact Bool.false_ne_true
  have hout : outputMeta 1 t.val.snapshot = some table := by
    rw [hsnap]
    rfl
  have r₁₅ : Runs 4 s₀ s₁₅ := r₁₄.tail
    (.flush (@FlushMove.write 4 1 s₁₄ ⟨addr, .empty⟩ t [] table rfl hfree hout))
  let s₁₆ := { s₁₅ with manifest := s₁₅.manifest.adopt (Version.empty.flushed table 2) }.setThread 1
    (.flush (.collecting ⟨addr, .empty⟩ (.table t [])))
  have r₁₆ : Runs 4 s₀ s₁₆ := r₁₅.tail (.flush (.install rfl))
  -- the scan finds the new table
  let s₁₇ := { s₁₆ with manifest := s₁₆.manifest.pin }.setThread 2
    (.read (.gathering .full 1 1 1 memory s₁₆.manifest.current [] [table]))
  have r₁₇ : Runs 4 s₀ s₁₇ := r₁₆.tail (.read (.pinScan rfl))
  let sources := [] ++ [t.val.snapshot.filter fun e => rangeContains .full e.1]
  let s₁₈ := s₁₇.setThread 2 (.read (.gathering .full 1 1 1 memory s₁₆.manifest.current sources []))
  have r₁₈ : Runs 4 s₀ s₁₈ := r₁₇.tail (.read (.gather rfl rfl))
  let s₁₉ := (s₁₈.drop (some s₁₆.manifest.current)).setThread 2
    (.read (.scanned .full 1 1 1 1 sources (MergeIterator.new (memory ++ sources)).live))
  have r₁₉ : Runs 4 s₀ s₁₉ := r₁₈.tail (.read (.merge rfl))
  -- garbage is collected, and the table leaves the memory
  let liveIds := s₁₉.manifest.retain.liveIds
  have hlive₁ : 1 ∈ liveIds := List.mem_flatMap.mpr ⟨_, List.mem_cons_self, List.mem_cons_self⟩
  have hlive₀ : 0 ∉ liveIds := by
    intro h
    obtain ⟨u, hu, hid⟩ := List.mem_flatMap.mp h
    rcases List.mem_cons.mp hu with rfl | hu
    · rcases List.mem_singleton.mp hid
    · obtain rfl := List.mem_singleton.mp (List.mem_filter.mp hu).1
      cases hid
  let s₂₀ := { s₁₉ with manifest := s₁₉.manifest.retain }.setThread 1
    (.flush (.sweeping ⟨addr, .empty⟩ liveIds (.table t [])))
  have r₂₀ : Runs 4 s₀ s₂₀ := r₁₉.tail (.flush (.collect rfl))
  let s₂₁ := { s₂₀ with files := Function.update s₂₀.files 0 none }
  have r₂₁ : Runs 4 s₀ s₂₁ := r₂₀.tail (.flush (i := 1) (.delete rfl hlive₀))
  let s₂₂ := s₂₁.setThread 1 (.flush (.discarding ⟨addr, .empty⟩ t []))
  have hdone : ∀ id, s₂₁.files id ≠ none → id ∈ liveIds := by
    rintro (_ | _ | id) hid
    · exact absurd rfl hid
    · exact hlive₁
    · refine absurd (if_neg ?_) hid
      show ¬ (w.fs.disk (tablePath demoConfig.dir (id + 2))).live.isSome = true
      rw [hlive (id + 2)]
      exact Bool.false_ne_true
  have r₂₂ : Runs 4 s₀ s₂₂ := r₂₁.tail (.flush (.sweptTable rfl hdone))
  let s₂₃ := ({ s₂₂ with memtables := s₂₂.memtables.discardFrozen t }.drop
    (some ⟨addr, .empty⟩)).setThread 1 (.flush (.looping []))
  have r₂₃ : Runs 4 s₀ s₂₃ := r₂₂.tail (.flush (.discard rfl))
  let s₂₄ := s₂₃.setThread 1 (.flush .resetting)
  have r₂₄ : Runs 4 s₀ s₂₄ := r₂₃.tail (.flush (.looped rfl))
  have hlog : s₂₄.log = since ++ [e] := rfl
  refine ⟨w, base, s₀, s₂₄, _, _, h₀, r₂₄, rfl, rfl, rfl, rfl, rfl, ?_⟩
  rw [hlog]
  exact List.append_ne_nil_of_right_ne_nil since (List.cons_ne_nil e [])


/-- The get sees the put. -/
theorem get_at_an_instant_demo : ∃ w base s₀ s, Starts demoConfig w base s₀ ∧ Runs 4 s₀ s ∧
    s.threads 0 = .read (.got [] 0 1 (some [])) ∧
    ∃ m, 0 ≤ m ∧ m ≤ 1 ∧ MeansAt (instant base s.applied m) [] (some []) := by
  obtain ⟨w, base, s₀, s, sources, out, h₀, hrun, hget, -⟩ := three_threads
  exact ⟨w, base, s₀, s, h₀, hrun, hget, (get_at_an_instant h₀ hrun hget).2⟩

/-- The table of the put is installed while the scan is under way. -/
theorem scan_at_an_instant_demo : ∃ w base s₀ s sources out, Starts demoConfig w base s₀ ∧
    Runs 4 s₀ s ∧ s.threads 2 = .read (.scanned .full 1 1 1 1 sources out) ∧ ∃ p, 1 ≤ p ∧ p ≤ 1 ∧
      Surveys (instant base s.applied 1) (instant base s.applied p) .full sources out := by
  obtain ⟨w, base, s₀, s, sources, out, h₀, hrun, -, hscan, -⟩ := three_threads
  exact ⟨w, base, s₀, s, sources, out, h₀, hrun, hscan, (scan_at_an_instant h₀ hrun hscan).2⟩

/-- The new table is there. -/
theorem files_stay_demo : ∃ w base s₀ s, Starts demoConfig w base s₀ ∧ Runs 4 s₀ s ∧
    s.manifest.current.val.allTables.length = 1 ∧ ∀ table ∈ s.manifest.current.val.allTables,
      s.files table.id = some (s.written table.id) := by
  obtain ⟨w, base, s₀, s, sources, out, h₀, hrun, -, -, -, htables, -⟩ := three_threads
  exact ⟨w, base, s₀, s, h₀, hrun, htables, fun table ht =>
    ((files_stay h₀ hrun).2.1 _ (Or.inl rfl) table ht).1⟩

/-- The put is in the new table alone, and its record is still in the log. -/
theorem layers_in_order_demo : ∃ w base s₀ s, Starts demoConfig w base s₀ ∧ Runs 4 s₀ s ∧
    s.manifest.current.val.allTables.length = 1 ∧
    Ordered (s.memtables.layers ++ s.manifest.current.val.layers s.written) := by
  obtain ⟨w, base, s₀, s, sources, out, h₀, hrun, -, -, -, htables, -⟩ := three_threads
  exact ⟨w, base, s₀, s, h₀, hrun, htables, (layers_in_order h₀ hrun).1⟩

/-- The log that is about to be emptied has the put. -/
theorem log_not_needed_demo : ∃ w base s₀ s, Starts demoConfig w base s₀ ∧ Runs 4 s₀ s ∧
    s.threads 1 = .flush .resetting ∧ s.log ≠ [] ∧
    Shows (s.manifest.current.val.layers s.written) (s.total base) := by
  obtain ⟨w, base, s₀, s, sources, out, h₀, hrun, -, -, hreset, -, -, hlog⟩ := three_threads
  exact ⟨w, base, s₀, s, h₀, hrun, hreset, hlog, (log_not_needed h₀ hrun hreset).2⟩

/-- The put is in the log and in the new table. -/
theorem log_and_tables_demo : ∃ w base s₀ s, Starts demoConfig w base s₀ ∧ Runs 4 s₀ s ∧
    s.applied.length = 1 ∧
    Shows ((s.log.foldl (fun t e => t.insertIfNewer e.1 e.2) Memtable.new).versions ::
      s.manifest.current.val.layers s.written) (s.total base ⊔ .ofList s.log) := by
  obtain ⟨w, base, s₀, s, sources, out, h₀, hrun, -, -, -, -, happlied, -⟩ := three_threads
  exact ⟨w, base, s₀, s, h₀, hrun, happlied, (log_and_tables h₀ hrun (Or.inl rfl)).2⟩

end Shared

end AccretionDb.Db
