import AccretionDb.Db.Store

/-! # What opening finds

Opening reads the manifest and the log, and offers the records to an empty memtable.  On
a shelf that knows of no record that is not in the log the handle stands where the writes
left it (`Stands.found`), whether the database was closed or the power went.
-/

namespace AccretionDb.Db

open CrashLogic

/-! ### Replaying records -/

/-- The memtables and the next sequence number after these writes are replayed. -/
def replayed (cfg : Config) (v : Version) (es : List Entry) : MemtableSet × Nat :=
  ({ MemtableSet.new cfg.options.memtableSize with
      active := es.foldl (fun t e => t.insertIfNewer e.1 e.2) .new },
    es.foldl (fun n e => max n (e.2.seq + 1)) v.nextSeq)

theorem replayRecords_payload {es : List Entry} (h : Loggable es) (cfg : Config) (v : Version) :
    replayRecords (es.map payload) (.new cfg.options.memtableSize, v.nextSeq) =
      .ok (replayed cfg v es) := by
  have hdecode : (es.map payload).map decodeRecord =
      (es.map fun e => (⟨e.2.seq, e.1, e.2⟩ : Record)).map Except.ok := by
    rw [List.map_map, List.map_map]
    refine List.map_congr_left fun e he => ?_
    obtain ⟨hs, hl⟩ := h e he
    exact decodeRecord_payload (Nat.lt_of_succ_lt hs) hl
  have hseqs : ∀ (es : List Entry) (n : Nat), Loggable es →
      es.foldl (fun n e => max n ((e.2.seq + 1) % 2 ^ 64)) n =
        es.foldl (fun n e => max n (e.2.seq + 1)) n := by
    intro es
    induction es with
    | nil => exact fun _ _ => rfl
    | cons e es ih =>
      intro n hl
      rw [List.foldl_cons, List.foldl_cons, Nat.mod_eq_of_lt (hl e List.mem_cons_self).1]
      exact ih _ fun x hx => hl x (List.mem_cons_of_mem e hx)
  have hentries : es.map (Record.entry ∘ fun e => (⟨e.2.seq, e.1, e.2⟩ : Record)) = es :=
    List.map_id' es
  rw [replayRecords_eq _ _ hdecode, List.map_map, hentries, List.foldl_map, hseqs es _ h]
  rfl

theorem le_foldl_max (es : List Entry) : ∀ n : Nat,
    n ≤ es.foldl (fun n e => max n (e.2.seq + 1)) n ∧
    ∀ e ∈ es, e.2.seq < es.foldl (fun n e => max n (e.2.seq + 1)) n := by
  induction es with
  | nil => exact fun n => ⟨Nat.le_refl n, nofun⟩
  | cons e es ih =>
    intro n
    obtain ⟨hle, hlt⟩ := ih (max n (e.2.seq + 1))
    refine ⟨(Nat.le_max_left ..).trans hle, fun x hx => ?_⟩
    rcases List.mem_cons.mp hx with rfl | hx
    · exact Nat.lt_of_lt_of_le (Nat.lt_succ_self _) ((Nat.le_max_right ..).trans hle)
    · exact hlt x hx

theorem foldl_max_lt {b : Nat} : ∀ (es : List Entry) (n : Nat), n < b →
    (∀ e ∈ es, e.2.seq + 1 < b) → es.foldl (fun n e => max n (e.2.seq + 1)) n < b := by
  intro es
  induction es with
  | nil => exact fun n hn _ => hn
  | cons e es ih =>
    intro n hn hes
    exact ih _ (Nat.max_lt.mpr ⟨hn, hes e List.mem_cons_self⟩) fun x hx =>
      hes x (List.mem_cons_of_mem e hx)

/-- Two writes of the log with one number are one. -/
theorem Rising.coherent {es : List Entry} (h : Rising es) : Coherent (History.ofList es) := by
  induction es with
  | nil => exact fun _ _ _ hv => absurd hv List.not_mem_nil
  | cons e es ih =>
    obtain ⟨hlt, hes⟩ := List.pairwise_cons.mp h
    intro k v w hv hw heq
    change v.seq = w.seq at heq
    rcases List.mem_cons.mp hv with he | hv
    · rcases List.mem_cons.mp hw with he' | hw
      · exact congrArg Prod.snd (he.trans he'.symm)
      · have := hlt _ hw
        rw [← he] at this
        exact absurd heq (Nat.ne_of_lt this)
    · rcases List.mem_cons.mp hw with he | hw
      · have := hlt _ hv
        rw [← he] at this
        exact absurd heq.symm (Nat.ne_of_lt this)
      · exact ih hes k v w hv hw heq

section Hashed

variable [TableHashing] {cfg : Config} {A : History Bytes InternalValue} {es : List Entry}
variable {L : Wal.Layout} {v : Version} {T : Contents} {d : Disk} {wal : Wal.State}

/-- **The handle stands** on what was found, if the shelf has nothing but the writes of
`A` and those in the log. -/
theorem Stands.found (hready : Wal.Ready cfg.wal d wal L []) (hlog : L.log = es.map payload)
    (hpend : cfg.options.durability.isDurable → L.pending = [])
    (hs : Manifest.World.Shelved cfg.dir v T d) (hd : Durable A (A ⊔ History.ofList es) v T)
    (hlater : Later A es) : Stands cfg A es L T (d, found v wal (replayed cfg v es)) := by
  obtain ⟨B, hA, hB, hset⟩ := hd.between
  have hreplays : Replays (replayed cfg v es).1.active.versions (History.ofList es) :=
    Memtable.replays_new hlater.rising.coherent
  have hstack : Stacked (A ⊔ History.ofList es) B v.nextSeq (replayed cfg v es).1.layers
      (v.layers T) :=
    .replay hreplays (Covers.of_later hA hB hlater.later) hset
  obtain ⟨hle, hlt⟩ := le_foldl_max es v.nextSeq
  refine ⟨hready, hlog, hpend, ⟨hready.holds, hs, ⟨hd.words, hd.arranged, hd.laidOut,
    hs.live.tables, .empty .., B, hA, hstack⟩, ?_⟩, hlater, fun k w hw => ?_, ?_, nofun⟩
  · intro a ha id hid
    obtain rfl := List.mem_singleton.mp ha
    obtain ⟨table, ht, rfl⟩ := List.mem_map.mp hid
    exact hd.arranged.below table ht
  · rcases hw with hw | hw
    · exact Nat.lt_of_lt_of_le (hset.below k w (hA k w hw)) hle
    · exact hlt (k, w) hw
  · exact foldl_max_lt es _ hd.words.nextSeq fun e he => (hlater.loggable e he).1

/-! ### Opening -/

section Open

variable {M : Type} {m : M} {strict H : Prop} {C : Disk × M → Prop} {J : Disk → Prop}

/-- The manifest is read, or the empty one is written; what holds of the log stays. -/
theorem wpE_open_shelved {dir : Dir} {Q : Manifest → Disk × M → Prop}
    {R : ManifestError → Disk × M → Prop} (hlog : ∀ d d', SameLog dir d d' → J d → J d')
    (hcommit : ∀ d, J d → J (d.commit dir)) (hj : J d)
    (hs : Manifest.World.Shelved dir v T d)
    (hC : ∀ d', J d' → Image Slot.durable dir d' v T → C (d', m))
    (hok : ∀ d', J d' → Manifest.World.Shelved dir v T d' → taken dir d' v = taken dir d v →
      Q (.start v) (d', m)) :
    wpE (Disk.sem Faults.none) strict H C (Manifest.open dir) Q R (d, m) := by
  rcases hs.live.manifest with hm | ⟨hm, rfl⟩
  · refine Manifest.wpE_open_some hm ?_ (hC d hj hs.durable) (hok d hj hs rfl)
    rw [Blob.content_mk, List.append_nil]
    exact hs.live.decodes
  · have hnone : Kept Slot.live dir d T Version.empty.referencedIds := hs.live.tables
    have hwritten : Manifest.World.Shelved dir .empty T (Manifest.written d dir .empty) :=
      Manifest.World.shelved_written Version.words_empty Version.lengthsFit_empty hnone
    have hj' : J (Manifest.written d dir .empty) := hcommit _ (hlog _ _ (sameLog_switched _) hj)
    refine Manifest.wpE_open_none hm (fun s => hC _ (hlog _ _ (sameLog_writing s) hj)
      (Manifest.World.image_writing hs.durable s)) (fun s => hC _ (hlog _ _ (sameLog_switched s) hj)
      (Manifest.World.image_switched hs.durable s)) (hC _ hj' hwritten.durable)
      (hok _ hj' hwritten (taken_congr ?_))
    rw [Manifest.written, Disk.live_commit, Manifest.switched,
      Function.update_of_ne (tablePath_ne_tmp dir _), Disk.put_of_ne (tablePath_ne_manifest dir _)]

/-- **Opening a database that was closed**: all of the log is found. -/
theorem wpE_openOn_closed {Q : Db → Disk × M → Prop} {R : DbError → Disk × M → Prop}
    (hL : Wal.Holds cfg.dir d L) (hlog : L.log = es.map payload) (hes : Loggable es)
    (hs : Manifest.World.Shelved cfg.dir v T d)
    (hC : ∀ d', Wal.Holds cfg.dir d' L → Image Slot.durable cfg.dir d' v T → C (d', m))
    (hok : ∀ d' wal, Wal.Ready cfg.wal d' wal L [] → Manifest.World.Shelved cfg.dir v T d' →
      taken cfg.dir d' v = taken cfg.dir d v → Q (found v wal (replayed cfg v es)) (d', m)) :
    wpE (Disk.sem Faults.none) strict H C (openOn cfg) Q R (d, m) := by
  refine wpE_bind.mpr (wpE_mapError (wpE_open_shelved (J := fun d => Wal.Holds cfg.dir d L)
    (fun _ _ hs h => h.congr hs) (fun _ h => h.commit) hL hs hC fun d₁ hL₁ hs₁ hnext => ?_))
  have hc := hC d₁ hL₁ hs₁.durable
  refine wpE_bind.mpr (wpE_mapError (Wal.wpE_reopen (.none _) hc hL₁ fun wal rec hready hrec _ => ?_))
  refine wpE_bind.mpr (wpE_ofExcept.mpr ⟨hc, ?_⟩)
  change outcome _ _ (replayRecords rec.records (_, v.nextSeq)) _
  rw [hrec, hlog, replayRecords_payload hes]
  exact wpE_pure.mpr ⟨hc, hok d₁ wal hready hs₁ hnext⟩

/-- **Opening after a power loss**: some of the log is found, at least what was durable. -/
theorem wpE_openOn_crashed {gs : List (Nat × Blob)} {k : Nat}
    {Q : Db → Disk × M → Prop} {R : DbError → Disk × M → Prop} (hk : Wal.Kept cfg.dir d gs)
    (htail : ∀ s ∈ gs, s.2.tail = []) (hsurv : Wal.Survives (gs.map Prod.snd) k (es.map payload))
    (hes : Loggable es) (hs : Manifest.World.Shelved cfg.dir v T d)
    (hC : ∀ d', Wal.DurLog cfg.dir d' k (es.map payload) → Image Slot.durable cfg.dir d' v T →
      C (d', m))
    (hok : ∀ d' wal L j, Wal.Ready cfg.wal d' wal L [] → L.pending = [] → k ≤ j →
      L.log = (es.take j).map payload → Manifest.World.Shelved cfg.dir v T d' →
      taken cfg.dir d' v = taken cfg.dir d v →
      Q (found v wal (replayed cfg v (es.take j))) (d', m)) :
    wpE (Disk.sem Faults.none) strict H C (openOn cfg) Q R (d, m) := by
  refine wpE_bind.mpr (wpE_mapError (wpE_open_shelved (J := fun d => Wal.Kept cfg.dir d gs)
    (fun _ _ hsame h => h.congr hsame) (fun _ h => h.commit) hk hs
    (fun d' hk' himage => hC d' ⟨gs, hk'.durSegs, hsurv⟩ himage) fun d₁ hk₁ hs₁ hnext => ?_))
  have hoff : OffLog cfg.dir v T d₁ d₁ := .refl hs₁
  refine wpE_bind.mpr (wpE_mapError (Wal.wpE_open (.none _) (OffLog.beside ..)
    (fun d' hdur hi => hC d' hdur hi.shelved.durable) hk₁ htail hsurv hoff
    (fun d' wal rec L hready hpend hrec hpre hle hi => ?_) fun ⟨_, _, _, hf⟩ => hf.elim))
  have hj : L.log = (es.take L.log.length).map payload := by
    rw [List.map_take]
    exact List.prefix_iff_eq_take.mp hpre
  have hc := hC d' (hready.holds.spares hpre ((Wal.Layout.durableLen_of_pending hpend).symm ▸ hle))
    hi.shelved.durable
  refine wpE_bind.mpr (wpE_ofExcept.mpr ⟨hc, ?_⟩)
  change outcome _ _ (replayRecords rec.records (_, v.nextSeq)) _
  rw [hrec, hj, replayRecords_payload fun e he => hes e (List.mem_of_mem_take he)]
  exact wpE_pure.mpr ⟨hc, hok d' wal L L.log.length hready hpend hle hj hi.shelved
    (hi.next.trans hnext)⟩

end Open

/-! ### Directories at rest -/

section Rests

variable {ok : History Bytes InternalValue → Prop} {d' : Disk} {may : Set Bool}

/-- **A directory that nobody has open**: the database was closed, or the power went, and
what opening it finds is a history that is `ok`.  Whether the next table has a file already
is in `may`. -/
inductive Rests (cfg : Config) (may : Set Bool) (ok : History Bytes InternalValue → Prop)
    (d : Disk) : Prop
  | closed {A : History Bytes InternalValue} {since : List Entry} {L : Wal.Layout} {v : Version}
      {T : Contents} (log : Wal.Holds cfg.dir d L) (records : L.log = since.map payload)
      (pending : cfg.options.durability.isDurable → L.pending = [])
      (shelved : Manifest.World.Shelved cfg.dir v T d)
      (durable : Durable A (A ⊔ History.ofList since) v T) (later : Later A since)
      (found : ok (A ⊔ History.ofList since)) (next : taken cfg.dir d v ∈ may) :
      Rests cfg may ok d
  | lost {A : History Bytes InternalValue} {since : List Entry} {k n : Nat} {v : Version}
      {T : Contents} {gs : List (Nat × Blob)} (log : Wal.Kept cfg.dir d gs)
      (synced : ∀ s ∈ gs, s.2.tail = [])
      (survives : Wal.Survives (gs.map Prod.snd) k (since.map payload))
      (shelved : Manifest.World.Shelved cfg.dir v T d)
      (durable : Durable A (A ⊔ History.ofList (since.take n)) v T) (later : Later A since)
      (le : n ≤ k) (found : ∀ j, k ≤ j → ok (A ⊔ History.ofList (since.take j)))
      (next : taken cfg.dir d v ∈ may) : Rests cfg may ok d

/-- A directory that has nothing in it yet. -/
theorem Rests.new (hd : ∀ p, d p = .absent) (h : ok ⊥) (hmay : false ∈ may) :
    Rests cfg may ok d := by
  have hnil : (⊥ : History Bytes InternalValue) ⊔ History.ofList [] = ⊥ := History.sup_ofList_nil _
  have hbetween : Between (⊥ : History Bytes InternalValue) ⊥ Version.empty.nextSeq
      (Version.empty.layers fun _ => []) := by
    refine ⟨⊥, le_refl _, le_refl _, ⟨.nil, ?_, fun k => .never fun v hv => hv, ?_⟩⟩
    · exact fun l hl => absurd hl List.not_mem_nil
    · exact fun k v hv => hv.elim
  have hlater : Later ⊥ [] := ⟨.nil, nofun, nofun⟩
  have hkept : Wal.Kept cfg.dir d [] :=
    ⟨.nil, nofun, fun id _ => hd _, nofun, fun id => hd _⟩
  have hsurv : Wal.Survives (([] : List (Nat × Blob)).map Prod.snd) 0
      (([] : List Entry).map payload) := .nil _
  refine .lost (v := .empty) (T := fun _ => []) (n := 0) hkept
    (fun s hs => absurd hs List.not_mem_nil) hsurv ⟨.empty (by rw [hd]; rfl) _,
    .empty (by rw [hd]; rfl) _⟩ ⟨Version.words_empty, ?_, Version.laidOut_empty, ?_⟩
    hlater (Nat.le_refl _) (fun j _ => ?_) ?_
  · exact ⟨nofun, nofun, .nil⟩
  · rw [List.take_nil, hnil]
    exact hbetween
  · rw [List.take_nil, hnil]
    exact h
  · rwa [taken, hd]

/-- A handle is dropped. -/
theorem Sound.rests {H : History Bytes InternalValue} {db : Db} (h : Sound cfg H (d, db))
    (hok : ok H) (hnext : taken cfg.dir d db.manifest.current.val ∈ may) :
    Rests cfg may ok d := by
  obtain ⟨A, since, L, T, rfl, hst⟩ := h
  exact .closed hst.ready.holds hst.log hst.pending (Shelf.shelved hst.shelf)
    (Reads.durable (Shelf.mem hst.shelf)) hst.later hok hnext

/-- **The power goes.** -/
theorem Safe.crash (h : Safe cfg ok d) (hdur : cfg.options.durability.isDurable)
    (hc : d.Crash d') (hcrc : ∀ id g b, (d (Wal.segmentPath cfg.dir id)).durable = some g →
      d' (Wal.segmentPath cfg.dir id) = .kept b → Wal.RejectsDamage g.content b.content) :
    Rests cfg Set.univ ok d' := by
  obtain ⟨A, since, k, n, v, T, hlater, hs, hj⟩ := h
  obtain ⟨gs, hkept, htail, hsurv⟩ := hs.log.crash hc hcrc
  obtain ⟨hlive, hdurable⟩ := hs.image.crash hc
  exact .lost hkept htail hsurv ⟨hlive, hdurable⟩ hs.durable hlater (hj hdur).1 (hj hdur).2
    (Set.mem_univ _)

theorem Rests.mono (h : Rests cfg may ok d) {may' : Set Bool} (hsub : may ⊆ may') :
    Rests cfg may' ok d := by
  cases h with
  | closed log records pending shelved durable later found next =>
    exact .closed log records pending shelved durable later found (hsub next)
  | lost log synced survives shelved durable later le found next =>
    exact .lost log synced survives shelved durable later le found (hsub next)

/-- In a durable mode the log of a directory at rest has nothing to lose. -/
theorem Rests.synced (h : Rests cfg may ok d) (hdur : cfg.options.durability.isDurable)
    {id : Nat} {g : Blob} (hg : (d (Wal.segmentPath cfg.dir id)).durable = some g) :
    g.tail = [] := by
  have hkept : ∃ gs, Wal.Kept cfg.dir d gs ∧ ∀ s ∈ gs, s.2.tail = [] := by
    cases h with
    | @closed A since L v T hL hrec hpend hs hd hlater hfound hnext =>
      refine ⟨L.blobs, hL.kept, fun s hm => ?_⟩
      rcases List.mem_append.mp hm with hm | hm
      · obtain ⟨t, -, rfl⟩ := List.mem_map.mp hm
        rfl
      · obtain rfl := List.mem_singleton.mp hm
        rw [hpend hdur]
        rfl
    | lost hk htail => exact ⟨_, hk, htail⟩
  obtain ⟨gs, hk, htail⟩ := hkept
  rcases hk.slot_eq id with ⟨g', hm, hs⟩ | ⟨_, hs⟩
  · rw [hs] at hg
    obtain rfl := Option.some.inj hg
    exact htail _ hm
  · rw [hs] at hg
    cases hg

/-- **Opening a directory at rest** finds a history that is `ok`, and the handle stands on
it; a power loss on the way finds no less. -/
theorem wpE_openOn_rests {M : Type} {m : M} {strict F : Prop} {Q : Db → Disk × M → Prop}
    {R : DbError → Disk × M → Prop} (h : Rests cfg may ok d)
    (hok : ∀ H db d', ok H → Sound cfg H (d', db) → db.write.inFlight = 0 →
      db.write.flushPending = false → taken cfg.dir d' db.manifest.current.val ∈ may →
      Q db (d', m)) :
    wpE (Disk.sem Faults.none) strict F (fun σ => Safe cfg ok σ.1) (openOn cfg) Q R (d, m) := by
  cases h with
  | @closed A since L v T hL hrec hpend hs hd hlater hfound hnext =>
    refine wpE_openOn_closed hL hrec hlater.loggable hs
      (fun d' hL' himage => ?_) fun d' wal hready hs' hsame => ?_
    · refine ⟨A, since, L.durableLen, since.length, v, T, hlater, ⟨himage, ?_, ?_⟩, fun hdur => ?_⟩
      · rwa [List.take_length]
      · exact hL'.spares (by rw [hrec]) (Nat.le_refl _)
      · rw [Wal.Layout.durableLen_of_pending (hpend hdur), hrec, List.length_map]
        refine ⟨Nat.le_refl _, fun j hj => ?_⟩
        rwa [List.take_of_length_le hj]
    · refine hok _ _ d' hfound ⟨A, since, L, T, rfl, .found hready hrec hpend hs' hd hlater⟩ rfl rfl
        ?_
      show taken cfg.dir d' v ∈ may
      rwa [hsame]
  | @lost A since k n v T gs hk htail hsurv hs hd hlater hle hfound hnext =>
    refine wpE_openOn_crashed hk htail hsurv hlater.loggable hs
      (fun d' hlog himage => ?_) fun d' wal L j hready hpend hkj hrec hs' hsame => ?_
    · exact ⟨A, since, k, n, v, T, hlater, ⟨himage, hd, hlog⟩, fun _ => ⟨hle, hfound⟩⟩
    · have htake : (since.take n).Sublist (since.take j) :=
        List.take_sublist_take_left (hle.trans hkj)
      refine hok _ _ d' (hfound j hkj) ⟨A, since.take j, L, T, rfl, .found hready hrec
        (fun _ => hpend) hs' (hd.mono (le_refl _) ?_) (hlater.sublist (List.take_sublist j since))⟩
        rfl rfl ?_
      · exact sup_le_sup_left (fun k v hv => htake.subset hv) A
      · show taken cfg.dir d' v ∈ may
        rwa [hsame]

theorem Rests.safe (h : Rests cfg may ok d) : Safe cfg ok d := by
  have hopen : wpE (Disk.sem Faults.none) False False (fun σ : Disk × Unit => Safe cfg ok σ.1)
      (openOn cfg) (fun _ _ => True) (fun _ _ => True) (d, ()) :=
    wpE_openOn_rests h fun _ _ _ _ _ _ _ _ => trivial
  exact wpE_crash hopen

/-- **A power loss at rest** takes nothing away. -/
theorem Rests.crash (h : Rests cfg may ok d) (hdur : cfg.options.durability.isDurable)
    (hc : d.Crash d') : Rests cfg Set.univ ok d' := by
  exact h.safe.crash hdur hc fun id g b hg hb => .of_synced hc hg hb (h.synced hdur hg)

end Rests

end Hashed

end AccretionDb.Db
