import AccretionDb.Db.Store

/-! # What a flush does

A flush puts the frozen tables on the shelf, one by one, empties the log and compacts.
Whichever of its calls fail, the handle answers as before and a power loss loses nothing
(`wpE_flushQuiesced_sound`).
-/

namespace AccretionDb.Db

open CrashLogic

variable [TableHashing]

/-! ### The version with one more table -/

/-- **A table of the memory goes to the shelf**, and stays in the memory. -/
theorem Reads.flushed {dir : Dir} {A H : History Bytes InternalValue} {ms : List Versions}
    {readers : Nat → Option SsTableReader} {v : Version} {T : Contents} {d d' : Disk}
    {nextSeq : Nat} {f : Memtable} {first : Entry} {rest : List Entry}
    (h : Reads dir A H (ms ++ [f.versions]) readers v T d) (hf : f.snapshot = first :: rest)
    (hbelow : ∀ k w, H k w → w.seq < nextSeq)
    (hs : SameLive dir v.referencedIds d d')
    (hkept : Kept Slot.live dir d' (Function.update T v.nextTableId (first :: rest))
      (v.flushed (tableMeta v.nextTableId first rest) nextSeq).referencedIds)
    (hw : (v.flushed (tableMeta v.nextTableId first rest) nextSeq).Words) :
    Reads dir A H (ms ++ [f.versions]) readers
      (v.flushed (tableMeta v.nextTableId first rest) nextSeq)
      (Function.update T v.nextTableId (first :: rest)) d' := by
  obtain ⟨B, hA, hst⟩ := h.stacked
  have hlayer : layerOf (first :: rest) = f.versions := by
    rw [← hf]
    exact funext f.layerOf_snapshot
  have hinst : Stacked H (B ⊔ graph f.versions) (max nextSeq v.nextSeq) (ms ++ [f.versions])
      (f.versions :: v.layers T) := hst.install (Nat.le_max_right ..) fun k w hk =>
    have hin : f.versions ∈ ms ++ [f.versions] := List.mem_append_right _ List.mem_cons_self
    lt_max_of_lt_left (hbelow k w (hst.within f.versions hin k w hk))
  have hasc : Ascending (first :: rest) := hf ▸ f.ascending_snapshot
  refine ⟨hw, h.arranged.flushed hasc nextSeq ?_,
    h.laidOut.flushed h.arranged.below rfl nextSeq, hkept,
    h.cached.next hs ?_ fun id hid => ?_, B ⊔ graph f.versions, hA.trans le_sup_left, ?_⟩
  · rw [hlayer]
    exact hinst.shelf.ordered
  · rw [Version.nextTableId_flushed]
    exact Nat.le_succ _
  · obtain ⟨table, ht, rfl⟩ := List.mem_map.mp hid
    rcases (Version.mem_flushed ..).mp ht with rfl | ht
    · exact Or.inr (Nat.le_refl _)
    · exact Or.inl ⟨List.mem_map_of_mem ht,
        Function.update_of_ne (Nat.ne_of_lt (h.arranged.below table ht)) ..⟩
  · rw [Version.layers_flushed h.arranged.below, hlayer]
    exact hinst

/-- **A compaction changes no answer.** -/
theorem Reads.compacted {dir : Dir} {A H : History Bytes InternalValue} {ms : List Versions}
    {readers : Nat → Option SsTableReader} {v v' : Version} {T T' : Contents} {d d' : Disk} {t : Nat}
    {above inputs below : List TableMeta} {out : List Entry} (h : Reads dir A H ms readers v T d)
    (hc : Compacted v T t v' T' above inputs below out) (hs : SameLive dir v.referencedIds d d')
    (hkept : Kept Slot.live dir d' T' v'.referencedIds) (hw : v'.Words) :
    Reads dir A H ms readers v' T' d' := by
  obtain ⟨B, hA, hst⟩ := h.stacked
  refine ⟨hw, hc.arranged h.arranged, hc.laidOut h.arranged h.laidOut, hkept,
    h.cached.next hs hc.nextTableId fun id hid => ?_, B, hA, ?_⟩
  · rw [hc.contents]
    obtain ⟨table, ht, rfl⟩ := List.mem_map.mp hid
    have hmem : table ∈ v.allTables → table.id ∈ v.referencedIds ∧
        Function.update T v.nextTableId out table.id = T table.id := fun hm =>
      ⟨List.mem_map_of_mem hm, Function.update_of_ne (Nat.ne_of_lt (h.arranged.below table hm)) ..⟩
    rw [← Version.mem_tablesNewestFirst, hc.after, List.mem_append, List.mem_append] at ht
    rcases ht with ht | ht | ht
    · exact Or.inl (hmem (hc.mem.mpr (Or.inl ht)))
    · rw [id_of_outputMeta (Option.mem_toList.mp ht)]
      exact Or.inr (Nat.le_refl _)
    · exact Or.inl (hmem (hc.mem.mpr (Or.inr (Or.inr ht))))
  · rw [hc.nextSeq]
    rcases hc.compacts h.arranged.describes h.arranged.ordered with hc' | he
    · exact hst.compacts hc'
    · rwa [he]

/-! ### The loop over the frozen tables -/

/-- What the loop does not touch, and how far the ids have gone: every table takes one. -/
structure Onward (db db' : Db) : Prop where
  wal : db'.wal = db.wal
  readers : db'.readers = db.readers
  write : db'.write = db.write
  active : db'.memtables.active = db.memtables.active
  frozen : db'.memtables.frozen <:+ db.memtables.frozen
  room : db'.manifest.current.val.nextTableId + db'.memtables.frozen.length ≤
    db.manifest.current.val.nextTableId + db.memtables.frozen.length

omit [TableHashing] in
theorem Onward.refl (db : Db) : Onward db db :=
  ⟨rfl, rfl, rfl, rfl, List.suffix_refl _, Nat.le_refl _⟩

omit [TableHashing] in
theorem Onward.trans {db₁ db₂ db₃ : Db} (h : Onward db₁ db₂) (h' : Onward db₂ db₃) :
    Onward db₁ db₃ where
  wal := h'.wal.trans h.wal
  readers := h'.readers.trans h.readers
  write := h'.write.trans h.write
  active := h'.active.trans h.active
  frozen := h'.frozen.trans h.frozen
  room := h'.room.trans h.room

section Specs

variable {cfg : Config} {A : History Bytes InternalValue} {since : List Entry} {L : Wal.Layout}
variable {e : Faults} {C : Disk × Db → Prop}

/-- The memory changes, and still is in order over the shelf. -/
theorem Stored.memory {H : History Bytes InternalValue} {T : Contents} {d : Disk} {db : Db}
    (h : Stored cfg A H L T (d, db)) {s : MemtableSet}
    (hms : ∀ B, Stacked H B db.manifest.current.val.nextSeq db.memtables.layers
      (db.manifest.current.val.layers T) → Stacked H B db.manifest.current.val.nextSeq s.layers
      (db.manifest.current.val.layers T)) :
    Stored cfg A H L T (d, { db with memtables := s }) :=
  ⟨Shelf.log h, Shelf.shelved h, Reads.memory (Shelf.mem h) hms, Shelf.older h⟩

/-- **The loop over the frozen tables** leaves none of them. -/
theorem wpE_flushFrozen_stored (hlog : L.log = since.map payload)
    (hpend : cfg.options.durability.isDurable → L.pending = []) (hlater : Later A since)
    (hC : ∀ σ, Steady cfg (A ⊔ History.ofList since) σ → C σ)
    (hhold : ∀ d db m, m.versions = db.manifest.versions → C (d, db) →
      C (d, { db with manifest := m }))
    {E : DbError → Disk × Db → Prop} (herr : e.Any → ∀ err σ, C σ → E err σ) {nextSeq : Nat}
    (hbelow : ∀ k v, (A ⊔ History.ofList since) k v → v.seq < nextSeq) (hseq : nextSeq < 2 ^ 64) :
    ∀ (rest : List (Arc Memtable)) {d : Disk} {db : Db} {T : Contents}
      {Q : Unit → Disk × Db → Prop}, db.memtables.frozen = rest →
      Stored cfg A (A ⊔ History.ofList since) L T (d, db) → (∀ t ∈ rest, t.val.snapshot ≠ []) →
      db.manifest.current.val.nextTableId + rest.length < 2 ^ 64 →
      (∀ d' db' T', Stored cfg A (A ⊔ History.ofList since) L T' (d', db') → Onward db db' →
        db'.memtables.frozen = [] →
        taken cfg.dir d' db'.manifest.current.val = taken cfg.dir d db.manifest.current.val →
        (taken cfg.dir d db.manifest.current.val = true → rest = [] ∧ db' = db) → Q () (d', db')) →
      (taken cfg.dir d db.manifest.current.val = true → rest ≠ [] → ∀ err d' db' T',
        Stored cfg A (A ⊔ History.ofList since) L T' (d', db') → Onward db db' →
        taken cfg.dir d' db'.manifest.current.val = true → E err (d', db')) →
      wpE (Disk.sem e) True True C (flushFrozen cfg nextSeq rest) Q E (d, db) := by
  have hsteady : ∀ {d : Disk} {db : Db} {T : Contents},
      Stored cfg A (A ⊔ History.ofList since) L T (d, db) → C (d, db) := fun h =>
    hC _ (.of_held hlog hpend hlater (Shelf.held h (upkeep ..)))
  intro rest
  induction rest with
  | nil =>
    intro d db T Q hfrozen hst _ _ hok _
    exact wpE_pure.mpr ⟨hsteady hst, hok d db T hst (.refl db) hfrozen rfl fun _ => ⟨rfl, rfl⟩⟩
  | cons t rest ih =>
    intro d db T Q hfrozen hst hfull hroom hok htaken
    let v := db.manifest.current.val
    have hpin : Stored cfg A _ L T (d, { db with manifest := db.manifest.pin }) := hst.hold rfl
    obtain ⟨first, more, hes⟩ := List.exists_cons_of_ne_nil (hfull t List.mem_cons_self)
    have hlayers := MemtableSet.layers_cons hfrozen
    have hmem : Reads cfg.dir A _ db.memtables.layers db.readers v T d := Shelf.mem hst
    rw [List.length_cons] at hroom
    have hnext : v.nextTableId + 1 < 2 ^ 64 := by
      show db.manifest.current.val.nextTableId + 1 < _
      omega
    let v' := v.flushed (tableMeta v.nextTableId first more) nextSeq
    refine wpE_bind.mpr (Manifest.wpE_withCurrent manifestPart (hsteady hst)
      (fun σ hc => hhold σ.1 σ.2 _ rfl hc) (wpE_bind.mpr (wpE_zoom manifestPart ?_)))
    have hv' : v' = v.flushed (tableMeta v.nextTableId first more) nextSeq := rfl
    refine wpE_flushTable_held (upkeep cfg.dir L A (A ⊔ History.ofList since)
      db.memtables.layers db.readers) (fun τ hτ => ?_) (fun ha err τ hτ => ?_) hpin hes
      (fun x hx => ?_) hseq hnext hv' rfl (fun d' hs hk hw => ?_)
      (fun hfree τ hτ hcur hfree' _ => ?_) fun hfile err => ?_
    · have hσ : Steady cfg (A ⊔ History.ofList since) (τ.1, { db with manifest := τ.2 }) :=
        .of_held hlog hpend hlater hτ
      exact hC _ hσ
    · exact herr ha err _ (hhold _ _ _ rfl hτ)
    · obtain ⟨B, _, hstack⟩ := hmem.stacked
      have hx' : t.val.versions x.1 = some x.2 := by
        rw [← t.val.layerOf_snapshot, hes]
        have hasc : Ascending (first :: more) := hes ▸ t.val.ascending_snapshot
        exact hasc.layerOf_eq_some.mpr hx
      have hin := hstack.within t.val.versions (hlayers ▸ List.mem_append_right _
        List.mem_cons_self) x.1 x.2 hx'
      exact (hbelow _ _ hin).trans hseq
    · rw [hlayers] at hmem ⊢
      exact hmem.flushed hes hbelow hs hk hw
    · obtain ⟨d₁, m₁⟩ := τ
      let db₁ : Db := { db with manifest := m₁ }
      change m₁.current.val = v' at hcur
      have hst₁ : Stored cfg A (A ⊔ History.ofList since) L
          (Function.update T v.nextTableId (first :: more)) (d₁, db₁) := hτ
      -- what was put on the shelf leaves the memory
      have hfrozen₁ : db₁.memtables.frozen = t :: rest := hfrozen
      have hst₂ : Stored cfg A (A ⊔ History.ofList since) L
          (Function.update T v.nextTableId (first :: more))
          (d₁, { db₁ with memtables := db.memtables.discardFrozen t }) := by
        refine hst₁.memory fun B hB => ?_
        have hfirst : m₁.current.val.layers (Function.update T v.nextTableId (first :: more)) =
            t.val.versions :: v.layers T := by
          rw [hcur, Version.layers_flushed hmem.arranged.below, ← hes]
          exact congrArg (· :: _) (funext t.val.layerOf_snapshot)
        rw [MemtableSet.layers_discard hfrozen]
        rw [show db₁.memtables.layers = _ from hlayers, hfirst] at hB
        rw [hfirst]
        exact hB.discard (hB.shelf.within t.val.versions List.mem_cons_self)
      let db₂ : Db := { db₁ with
        memtables := db.memtables.discardFrozen t
        manifest := m₁.unpin db.manifest.current }
      have hst₃ : Stored cfg A (A ⊔ History.ofList since) L
          (Function.update T v.nextTableId (first :: more)) (d₁, db₂) := hst₂.hold rfl
      have hfrozen₂ : db₂.memtables.frozen = rest := MemtableSet.frozen_discard hfrozen
      have hfree : taken cfg.dir d db.manifest.current.val = false := hfree
      have hfree₂ : taken cfg.dir d₁ db₂.manifest.current.val = false := by
        show taken cfg.dir d₁ m₁.current.val = false
        rwa [hcur]
      have hid : m₁.current.val.nextTableId = v.nextTableId + 1 :=
        (congrArg Version.nextTableId hcur).trans (Version.nextTableId_flushed ..)
      have hon : Onward db db₂ := by
        refine ⟨rfl, rfl, rfl, rfl, ?_, ?_⟩
        · rw [hfrozen₂, hfrozen]
          exact List.suffix_cons t rest
        · rw [hfrozen₂, hfrozen, List.length_cons]
          show m₁.current.val.nextTableId + _ ≤ v.nextTableId + _
          omega
      refine wpE_modify (hsteady hst₁) (hsteady hst₂) ?_
      show wpE _ _ _ _ (flushFrozen cfg nextSeq rest) _ _ (d₁, db₂)
      refine ih hfrozen₂ hst₃ (fun u hu => hfull u (List.mem_cons_of_mem t hu)) ?_
        (fun d' db' T' hst' hon' hnone hsame _ => ?_) fun hfile => ?_
      · show m₁.current.val.nextTableId + rest.length < _
        rw [hid]
        show db.manifest.current.val.nextTableId + 1 + _ < _
        omega
      · refine hok d' db' T' hst' (hon.trans hon') hnone (hsame.trans (hfree₂.trans hfree.symm))
          fun hfile => ?_
        exact absurd (hfree.symm.trans hfile) Bool.false_ne_true
      · exact absurd (hfree₂.symm.trans hfile) Bool.false_ne_true
    · exact htaken hfile (List.cons_ne_nil t rest) err d _ T (hst.hold rfl)
        ⟨rfl, rfl, rfl, rfl, List.suffix_refl _, Nat.le_refl _⟩ hfile

/-! ### Emptying the log -/

theorem Steady.hold {H : History Bytes InternalValue} {d : Disk} {db : Db}
    (h : Steady cfg H (d, db)) {m : Manifest} (hv : m.versions = db.manifest.versions) :
    Steady cfg H (d, { db with manifest := m }) := by
  have hcur : m.current = db.manifest.current := (List.cons.inj hv).1
  obtain ⟨⟨A, T, hr⟩, hs⟩ := h
  refine ⟨⟨A, T, ?_⟩, hs⟩
  show Reads _ _ _ _ _ m.current.val _ _
  rwa [hcur]

/-- **The log is emptied** when all of it is on the shelf. -/
theorem wpE_reset_stored {T : Contents} {d : Disk} {db : Db}
    {Q : Unit → Disk × Db → Prop} {E : DbError → Disk × Db → Prop}
    (h : Stands cfg A since L T (d, db)) (hempty : ∀ k, lookup db.memtables.layers k = none)
    (herr : e.Any → ∀ err σ, Steady cfg (A ⊔ History.ofList since) σ → E err σ)
    (hok : ∀ d' wal L', Stands cfg (A ⊔ History.ofList since) [] L' T (d', { db with wal }) →
      taken cfg.dir d' db.manifest.current.val = taken cfg.dir d db.manifest.current.val →
      Q () (d', { db with wal })) :
    wpE (Disk.sem e) True True (Steady cfg (A ⊔ History.ofList since))
      ((Act.zoom walPart (Wal.reset cfg.wal)).mapError DbError.storage) Q E (d, db) := by
  have hreads : Reads cfg.dir (A ⊔ History.ofList since) (A ⊔ History.ofList since)
      db.memtables.layers db.readers db.manifest.current.val T d := by
    have hmem := Shelf.mem h.shelf
    obtain ⟨B, _, hst⟩ := hmem.stacked
    exact ⟨hmem.words, hmem.arranged, hmem.laidOut, hmem.kept, hmem.cached, _, le_refl _,
      hst.settle hempty⟩
  have hoff : OffLog cfg.dir db.manifest.current.val T d d := .refl (Shelf.shelved h.shelf)
  have holder := Shelf.older h.shelf
  have hnil : (A ⊔ History.ofList since) ⊔ History.ofList [] = A ⊔ History.ofList since :=
    History.sup_ofList_nil _
  refine wpE_mapError (wpE_zoom walPart (Wal.wpE_reset (fun ha err σ hσ => ?_)
    (OffLog.beside ..) trivial (fun d' wal hdur hi => ?_) h.ready hoff
    fun d' wal L' hready hlog hpend hi => ?_))
  · exact herr (Or.inl ha) _ _ hσ
  · refine ⟨⟨_, T, (hreads.congr hi.same)⟩, ?_⟩
    rcases hdur with hdur | hdur
    · refine ⟨A, since, L.durableLen, db.manifest.current.val, T, rfl, h.later,
        ⟨hi.shelved.durable, ?_, ?_⟩, fun hm => ?_⟩
      · rw [List.take_length]
        exact (hreads.congr hi.same).durable.mono le_sup_left (le_refl _)
      · rwa [h.log] at hdur
      · rw [Wal.Layout.durableLen_of_pending (h.pending hm), h.log, List.length_map]
    · refine ⟨_, [], 0, db.manifest.current.val, T, hnil, ⟨.nil, fun _ _ _ _ hm => ?_, nofun⟩,
        ⟨hi.shelved.durable, ?_, hdur⟩, fun _ => Nat.le_refl _⟩
      · exact absurd hm List.not_mem_nil
      · rw [List.take_nil, hnil]
        exact (hreads.congr hi.same).durable
  · refine hok d' wal L' ⟨hready, hlog, fun _ => hpend, ?_, ⟨.nil, fun _ _ _ _ hm => ?_, nofun⟩,
      ?_, h.word, h.filled⟩ hi.next
    · rw [hnil]
      exact ⟨hready.holds, hi.shelved, (hreads.congr hi.same), holder⟩
    · exact absurd hm List.not_mem_nil
    · rw [hnil]
      exact h.claimed

/-! ### Compacting -/

/-- **The cascade at the end of a flush** changes no answer. -/
theorem wpE_cascade_stored {T : Contents} {d : Disk} {db : Db} {Q : Unit → Disk × Db → Prop}
    {E : DbError → Disk × Db → Prop} (h : Stands cfg A since L T (d, db))
    (hroom : db.manifest.current.val.nextTableId + cfg.rounds < 2 ^ 64)
    (herr : e.Any → ∀ err σ, Steady cfg (A ⊔ History.ofList since) σ → E err σ)
    (hok : ∀ d' m T', Stands cfg A since L T' (d', { db with manifest := m }) →
      taken cfg.dir d' m.current.val = taken cfg.dir d db.manifest.current.val →
      (taken cfg.dir d db.manifest.current.val = true →
        firstFull cfg.options.tierFanout db.manifest.current.val = none) →
      Q () (d', { db with manifest := m }))
    (htaken : taken cfg.dir d db.manifest.current.val = true →
      firstFull cfg.options.tierFanout db.manifest.current.val ≠ none → ∀ err d' m T',
      Stands cfg A since L T' (d', { db with manifest := m }) →
      taken cfg.dir d' m.current.val = true → E err (d', { db with manifest := m })) :
    wpE (Disk.sem e) True True (Steady cfg (A ⊔ History.ofList since))
      ((Act.zoom manifestPart (Manifest.cascade cfg.dir cfg.options.tierFanout cfg.rounds)).mapError
        DbError.compaction) Q E (d, db) := by
  have hstands : ∀ {d' : Disk} {m : Manifest} {T' : Contents},
      Stored cfg A (A ⊔ History.ofList since) L T' (d', { db with manifest := m }) →
      Stands cfg A since L T' (d', { db with manifest := m }) := fun hst =>
    ⟨⟨Shelf.log hst, h.ready.writes, h.ready.idle, h.ready.queue, h.ready.behind, h.ready.group⟩,
      h.log, h.pending, hst, h.later, h.claimed, h.word, h.filled⟩
  refine wpE_mapError (wpE_zoom manifestPart ?_)
  refine wpE_cascade_held (upkeep cfg.dir L A (A ⊔ History.ofList since) db.memtables.layers
    db.readers) (fun τ hτ => ?_) (fun d' m m' hv hc => ?_) (fun ha err τ hτ => ?_)
    (fun v T d t v' T' d' hM hc hs hk hw => ?_) cfg.rounds h.shelf hroom
    (fun τ T' hτ hsame hnone => hok τ.1 τ.2 T' (hstands hτ) hsame hnone)
    fun hfile hfull err τ T' hτ hstays => ?_
  · have hσ : Steady cfg (A ⊔ History.ofList since) (τ.1, { db with manifest := τ.2 }) :=
      .of_held h.log h.pending h.later hτ
    exact hσ
  · have hσ : Steady cfg (A ⊔ History.ofList since) (d', { db with manifest := m }) := hc
    exact hσ.hold hv
  · exact herr ha _ _ hτ
  · obtain ⟨above, inputs, below, out, hcomp⟩ := compactTier_eq_some hc
    exact hM.compacted hcomp hs hk hw
  · exact htaken hfile hfull _ τ.1 τ.2 T' (hstands hτ) hstays

/-! ### The whole flush -/

/-- The handle still stands when tables have gone from the memory to the shelf. -/
theorem Stands.onward {T T' : Contents} {d d' : Disk} {db db' : Db}
    (h : Stands cfg A since L T (d, db)) (hon : Onward db db')
    (hst : Stored cfg A (A ⊔ History.ofList since) L T' (d', db')) :
    Stands cfg A since L T' (d', db') := by
  obtain ⟨hready, hlog, hpend, _, hlater, hclaimed, hword, hfilled⟩ := h
  refine ⟨⟨Shelf.log hst, ?_, ?_, ?_, ?_, hready.group⟩, hlog, hpend, hst, hlater, ?_, ?_,
    fun t ht => hfilled t (hon.frozen.subset ht)⟩
  · rw [hon.wal]
    exact hready.writes
  · rw [hon.wal]
    exact hready.idle
  · rw [hon.wal]
    exact hready.queue
  · rw [hon.wal]
    exact hready.behind
  · rw [hon.write]
    exact hclaimed
  · rw [hon.write]
    exact hword

/-- Freezing changes no answer. -/
theorem Stands.freeze {T : Contents} {d : Disk} {db : Db} (h : Stands cfg A since L T (d, db)) :
    Stands cfg A since L T (d, onMemtables freezeActive db) := by
  refine ⟨h.ready, h.log, h.pending, Stored.memory h.shelf fun B hB => ?_, h.later, h.claimed,
    h.word, filled_freezeActive h.filled⟩
  rcases layers_freezeActive db.memtables with he | he
  · rwa [he]
  · rw [he]
    exact hB.fresh Memtable.versions_new

/-- How many ids a flush may take. -/
def Room (cfg : Config) (db : Db) : Prop :=
  db.manifest.current.val.nextTableId + (db.memtables.frozen.length + 1) + cfg.rounds < 2 ^ 64

/-- A flush has a table to write. -/
def HasWork (cfg : Config) (db : Db) : Prop :=
  (freezeActive db.memtables).frozen ≠ [] ∨
    firstFull cfg.options.tierFanout db.manifest.current.val ≠ none

/-- **A flush, whichever of its calls fail**: the answers stay what they are at every
moment, and if no call fails, then either the flush does all of its work or there is some,
and the next table has a file already. -/
theorem wpE_flushQuiesced_sound {H : History Bytes InternalValue} {d : Disk} {db : Db}
    {Q : Unit → Disk × Db → Prop} {E : DbError → Disk × Db → Prop} (h : Sound cfg H (d, db))
    (hroom : Room cfg db) (herr : e.Any → ∀ err σ, Steady cfg H σ → E err σ)
    (hok : ∀ σ, Sound cfg H σ → σ.2.write = db.write →
      taken cfg.dir σ.1 σ.2.manifest.current.val = taken cfg.dir d db.manifest.current.val →
      (taken cfg.dir d db.manifest.current.val = true → ¬ HasWork cfg db) → Q () σ)
    (htaken : taken cfg.dir d db.manifest.current.val = true → HasWork cfg db → ∀ err σ,
      Sound cfg H σ → σ.2.write = db.write →
      taken cfg.dir σ.1 σ.2.manifest.current.val = true → E err σ) :
    wpE (Disk.sem e) True True (Steady cfg H) (flushQuiesced cfg) Q E (d, db) := by
  obtain ⟨A, since, L, T, rfl, hst⟩ := h
  have hfreeze := hst.freeze
  let db₁ := onMemtables freezeActive db
  have hlen : db₁.memtables.frozen.length ≤ db.memtables.frozen.length + 1 :=
    length_freezeActive db.memtables
  have hroom' : db.manifest.current.val.nextTableId + (db.memtables.frozen.length + 1) +
    cfg.rounds < 2 ^ 64 := hroom
  have hids : db₁.manifest.current.val.nextTableId = db.manifest.current.val.nextTableId := rfl
  refine wpE_bind.mpr (wpE_modify hst.steady hfreeze.steady (wpE_bind.mpr
    (wpE_get hfreeze.steady ?_)))
  show wpE _ _ _ _ (flushFrozen cfg db₁.write.nextSeq db₁.memtables.frozen >>= _) _ _ (d, db₁)
  refine wpE_bind.mpr (wpE_flushFrozen_stored hst.log hst.pending hst.later (fun _ hσ => hσ)
    (fun _ _ _ hv hσ => hσ.hold hv) herr hst.claimed hst.word _ rfl hfreeze.shelf hfreeze.filled
    (by omega) (fun d₂ db₂ T₂ hst₂ hon hnone hsame hidle => ?_)
    fun hfile hmore err d₂ db₂ T₂ hst₂ hon hstays => ?_)
  swap
  · exact htaken hfile (Or.inl hmore) err _ ⟨A, since, L, T₂, rfl, hfreeze.onward hon hst₂⟩
      hon.write hstays
  -- nothing is left in the memory
  have hempty : ∀ k, lookup db₂.memtables.layers k = none := by
    intro k
    rw [MemtableSet.layers, hnone, hon.active]
    exact lookup_cons_none (active_freezeActive db.memtables k) _
  have hnext := hon.room
  rw [hnone, List.length_nil] at hnext
  refine wpE_bind.mpr (wpE_reset_stored (hfreeze.onward hon hst₂) hempty herr
    fun d₃ wal L' hst₃ hsame' => ?_)
  have hsame₃ : taken cfg.dir d₃ db₂.manifest.current.val =
      taken cfg.dir d db.manifest.current.val := hsame'.trans hsame
  have hH : (A ⊔ History.ofList since) ⊔ History.ofList [] = A ⊔ History.ofList since :=
    History.sup_ofList_nil _
  have hcascade := wpE_cascade_stored (e := e) (Q := Q) (E := E) hst₃ (by
    show db₂.manifest.current.val.nextTableId + cfg.rounds < 2 ^ 64
    omega) (by rwa [hH])
    (fun d₄ m T₄ hst₄ hsame₄ hfull => ?_) fun hfile₃ hfull err d₄ m T₄ hst₄ hstays => ?_
  · rwa [hH] at hcascade
  · refine hok _ ⟨_, [], L', T₄, hH, hst₄⟩ hon.write (hsame₄.trans hsame₃) fun hfile => ?_
    obtain ⟨hnil, rfl⟩ := hidle hfile
    exact not_or.mpr ⟨not_not.mpr hnil, not_not.mpr (hfull (hsame₃.trans hfile))⟩
  · have hfile : taken cfg.dir d db.manifest.current.val = true := hsame₃.symm.trans hfile₃
    obtain ⟨-, rfl⟩ := hidle hfile
    exact htaken hfile (Or.inr hfull) err _ ⟨_, [], L', T₄, hH, hst₄⟩ hon.write hstays

theorem Steady.onWrite {H : History Bytes InternalValue} {d : Disk} {db : Db}
    (h : Steady cfg H (d, db)) (f : WriteState → WriteState) : Steady cfg H (d, onWrite f db) :=
  ⟨h.reads, h.spared⟩

theorem Sound.onWrite {H : History Bytes InternalValue} {d : Disk} {db : Db}
    (h : Sound cfg H (d, db)) {f : WriteState → WriteState}
    (hf : (f db.write).nextSeq = db.write.nextSeq) : Sound cfg H (d, onWrite f db) := by
  obtain ⟨A, since, L, T, hH, hst⟩ := h
  obtain ⟨hready, hlog, hpend, hshelf, hlater, hclaimed, hword, hfilled⟩ := hst
  refine ⟨A, since, L, T, hH, hready, hlog, hpend, hshelf, hlater, fun k v hv => ?_, ?_, hfilled⟩
  · show v.seq < (f db.write).nextSeq
    rw [hf]
    exact hclaimed k v hv
  · show (f db.write).nextSeq < 2 ^ 64
    rwa [hf]

/-- **A flush of a handle with no write in flight.** -/
theorem wpE_flushLocked_sound {H : History Bytes InternalValue} {d : Disk} {db : Db}
    {Q : Unit → Disk × Db → Prop} {E : DbError → Disk × Db → Prop} (h : Sound cfg H (d, db))
    (hidle : db.write.inFlight = 0) (hroom : Room cfg db)
    (herr : e.Any → ∀ err σ, Steady cfg H σ → E err σ)
    (hok : ∀ σ, Sound cfg H σ → σ.2.write = db.write.setPending false →
      taken cfg.dir σ.1 σ.2.manifest.current.val = taken cfg.dir d db.manifest.current.val →
      (taken cfg.dir d db.manifest.current.val = true → ¬ HasWork cfg db) → Q () σ)
    (htaken : taken cfg.dir d db.manifest.current.val = true → HasWork cfg db → ∀ err σ,
      Sound cfg H σ → σ.2.write = db.write.setPending false →
      taken cfg.dir σ.1 σ.2.manifest.current.val = true → E err σ) :
    wpE (Disk.sem e) True True (Steady cfg H) (flushLocked cfg) Q E (d, db) := by
  have hpending : Sound cfg H (d, onWrite (WriteState.setPending true) db) := h.onWrite rfl
  refine wpE_bind.mpr (wpE_modifyGet h.steady hpending.steady ?_)
  dsimp only
  rw [if_neg (Nat.not_lt.mpr (Nat.le_of_eq hidle))]
  -- whatever became of the flush, nobody waits for it any more
  have hrest : ∀ (r : Except DbError Unit) (σ : Disk × Db), Steady cfg H σ →
      outcome Q E r (σ.1, onWrite (WriteState.setPending false) σ.2) →
      wpE (Disk.sem e) True True (Steady cfg H) (Act.modify (Db.onWrite (WriteState.setPending false))
        >>= fun _ => Act.ofExcept r) Q E σ := by
    rintro r ⟨d', db'⟩ hσ hq
    exact wpE_bind.mpr (wpE_modify hσ (hσ.onWrite _) (wpE_ofExcept.mpr ⟨hσ.onWrite _, hq⟩))
  refine wpE_bind.mpr (wpE_attempt (wpE_flushQuiesced_sound hpending hroom
    (fun ha err σ hσ => hrest (.error err) σ hσ (herr ha err _ (hσ.onWrite _)))
    (fun σ hσ hw hsame hnone => hrest (.ok ()) σ hσ.steady ?_)
    fun hfile hwork err σ hσ hw hstays => hrest (.error err) σ hσ.steady ?_))
  · exact hok (σ.1, onWrite (WriteState.setPending false) σ.2) (hσ.onWrite rfl)
      (by rw [onWrite, hw]; rfl) hsame hnone
  · exact htaken hfile hwork err (σ.1, onWrite (WriteState.setPending false) σ.2) (hσ.onWrite rfl)
      (by rw [onWrite, hw]; rfl) hstays

end Specs

end AccretionDb.Db
