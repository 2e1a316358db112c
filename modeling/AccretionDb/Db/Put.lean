import AccretionDb.Db.Flush

/-! # What a write does

A write logs its record and applies it.  Between the two the handle does not answer for
it yet, but a power loss may find it: what is left is what was written before, with the
write or without it (`wpE_writeKind_sound`).
-/

namespace AccretionDb.Db

open CrashLogic

variable [TableHashing]

section Put

variable {cfg : Config} {A : History Bytes InternalValue} {since : List Entry} {L : Wal.Layout}
variable {T : Contents} {d : Disk} {db : Db}

omit [TableHashing] in
/-- A write behind all others. -/
theorem Later.concat (h : Later A since) {e : Entry}
    (hlt : ∀ k v, (A ⊔ History.ofList since) k v → v.seq < e.2.seq) (hseq : e.2.seq + 1 < 2 ^ 64)
    (hlen : (payload e).length < 2 ^ 32) : Later A (since ++ [e]) where
  rising := List.pairwise_append.mpr ⟨h.rising, List.pairwise_singleton _ _, fun x hx y hy => by
    obtain rfl := List.mem_singleton.mp hy
    exact hlt x.1 x.2 (Or.inr hx)⟩
  later k v w hv hw := by
    rcases List.mem_append.mp hw with hw | hw
    · exact h.later k v w hv hw
    · obtain rfl := List.mem_singleton.mp hw
      exact Or.inl (hlt k v (Or.inl hv))
  loggable x hx := by
    rcases List.mem_append.mp hx with hx | hx
    · exact h.loggable x hx
    · obtain rfl := List.mem_singleton.mp hx
      exact ⟨hseq, hlen⟩

/-- What a write may leave for a power loss: what was there, with the write or without. -/
def With (H : History Bytes InternalValue) (e : Entry) (H' : History Bytes InternalValue) : Prop :=
  H' = H ∨ H' = H.add e.1 e.2

/-- **Logging a record**: it is the last one in the log. -/
theorem wpE_append_stored {Q : Unit → Disk × Db → Prop} {E : StorageError → Disk × Db → Prop}
    {e : Entry} (h : Stands cfg A since L T (d, db))
    (hlt : ∀ k v, (A ⊔ History.ofList since) k v → v.seq < e.2.seq) (hseq : e.2.seq + 1 < 2 ^ 64)
    (hlen : (payload e).length < 2 ^ 32)
    (hok : ∀ d' wal L', Wal.Ready cfg.wal d' wal L' [] → L'.log = (since ++ [e]).map payload →
      (cfg.options.durability.isDurable → L'.pending = []) →
      OffLog cfg.dir db.manifest.current.val T d d' → Q () (d', { db with wal })) :
    wpE (Disk.sem Faults.none) True True
      (fun σ => Safe cfg (With (A ⊔ History.ofList since) e) σ.1)
      (Act.zoom walPart (Wal.append cfg.wal (payload e))) Q E (d, db) := by
  have hreads := Shelf.mem h.shelf
  have hoff : OffLog cfg.dir db.manifest.current.val T d d := .refl (Shelf.shelved h.shelf)
  have hlog : L.log ++ [payload e] = (since ++ [e]).map payload := by
    rw [h.log, List.map_append]
    rfl
  refine wpE_zoom walPart (Wal.wpE_append_record (.none _) (OffLog.beside ..) trivial
    (fun d' st hd hi => ?_) hlen .nil h.ready hoff (fun d' st' L' hready hlog' _ hpend hi => ?_)
    fun hs => absurd hs ?_)
  · rw [List.append_nil, hlog] at hd
    refine ⟨A, since ++ [e], L.durableLen, since.length, db.manifest.current.val, T,
      h.later.concat hlt hseq hlen, ⟨hi.shelved.durable, ?_, hd⟩, fun hdur => ?_⟩
    · rw [List.take_left]
      exact hreads.durable
    · rw [Wal.Layout.durableLen_of_pending (h.pending hdur), h.log, List.length_map]
      refine ⟨Nat.le_refl _, fun j hj => ?_⟩
      rcases Nat.eq_or_lt_of_le hj with rfl | hj
      · rw [List.take_left]
        exact Or.inl rfl
      · rw [List.take_of_length_le (by rw [List.length_append]; exact hj)]
        exact Or.inr (sup_ofList_concat A since e)
  · rw [List.append_nil, hlog] at hlog'
    exact hok d' st' L' hready hlog' hpend hi
  · rintro ⟨p, data, n, hf⟩
    exact hf.elim

/-- **Applying a write** that is later than all others. -/
theorem Reads.put {dir : Dir} {H : History Bytes InternalValue} {s : MemtableSet}
    {readers : Nat → Option SsTableReader} {v : Version} (h : Reads dir A H s.layers readers v T d)
    {key : Bytes} {val : InternalValue} (hlt : ∀ k w, H k w → w.seq < val.seq) :
    Reads dir A (H.add key val) (s.insertIfNewer key val).layers readers v T d := by
  obtain ⟨B, hA, hst⟩ := h.stacked
  refine ⟨h.words, h.arranged, h.laidOut, h.kept, h.cached, B, hA, ?_⟩
  rw [MemtableSet.layers_insertIfNewer fun prev hprev =>
    hlt key prev (hst.within _ List.mem_cons_self key prev hprev)]
  exact hst.put hlt

omit [TableHashing] in
theorem activeBytes_insertIfNewer (s : MemtableSet) (key : Bytes) (val : InternalValue) :
    (s.insertIfNewer key val).activeBytes > 0 := by
  refine Nat.pos_of_ne_zero fun hzero => ?_
  obtain ⟨v, hv, -⟩ := Memtable.exists_insertIfNewer s.active key val
  have hnone := (Memtable.approxBytes_eq_zero (s.active.insertIfNewer key val)).mp hzero key
  rw [hnone] at hv
  cases hv

/-- **A write that returns is applied**; one that a power loss cuts short is applied or not.
The only error is that of the flush of a full memtable whose next table has a file already,
and then the write is applied. -/
theorem wpE_writeKind_sound {H : History Bytes InternalValue} {key : Bytes} {kind : ValueKind}
    {Q : Unit → Disk × Db → Prop} {E : DbError → Disk × Db → Prop} (h : Sound cfg H (d, db))
    (hidle : db.write.inFlight = 0) (hpending : db.write.flushPending = false)
    (hroom : Room cfg db) (hseq : db.write.nextSeq + 1 < 2 ^ 64)
    (hlen : (encodeRecord db.write.nextSeq key kind).length < 2 ^ 32)
    (hok : ∀ σ, Sound cfg (H.add key ⟨db.write.nextSeq, kind⟩) σ →
      σ.2.write = ⟨db.write.nextSeq + 1, 0, false⟩ →
      taken cfg.dir σ.1 σ.2.manifest.current.val = taken cfg.dir d db.manifest.current.val →
      (taken cfg.dir d db.manifest.current.val = true →
        (db.memtables.insertIfNewer key ⟨db.write.nextSeq, kind⟩).isFull = false) → Q () σ)
    (htaken : taken cfg.dir d db.manifest.current.val = true →
      (db.memtables.insertIfNewer key ⟨db.write.nextSeq, kind⟩).isFull = true → ∀ err σ,
      Sound cfg (H.add key ⟨db.write.nextSeq, kind⟩) σ →
      σ.2.write = ⟨db.write.nextSeq + 1, 0, false⟩ →
      taken cfg.dir σ.1 σ.2.manifest.current.val = true → E err σ) :
    wpE (Disk.sem Faults.none) True True
      (fun σ => Safe cfg (With H (key, ⟨db.write.nextSeq, kind⟩)) σ.1)
      (writeKind cfg key kind) Q E (d, db) := by
  obtain ⟨A, since, L, T, rfl, hst⟩ := h
  let H := A ⊔ History.ofList since
  let val : InternalValue := ⟨db.write.nextSeq, kind⟩
  have hbefore : Safe cfg (With H (key, val)) d := hst.steady.safe.mono fun _ he => Or.inl he
  -- phase 1
  let db₁ := onWrite WriteState.claim db
  have hclaim : db₁.write = ⟨db.write.nextSeq + 1, 1, false⟩ := by
    show WriteState.claim db.write = _
    rw [WriteState.claim, hpending, hidle, Nat.mod_eq_of_lt (by omega)]
    rfl
  have hlt : ∀ k v, H k v → v.seq < db₁.write.nextSeq := fun k v hv => by
    rw [hclaim]
    exact Nat.lt_succ_of_lt (hst.claimed k v hv)
  have hword : db₁.write.nextSeq < 2 ^ 64 := by rwa [hclaim]
  have hst₁ : Stands cfg A since L T (d, db₁) :=
    ⟨hst.ready, hst.log, hst.pending, hst.shelf, hst.later, hlt, hword, hst.filled⟩
  refine wpE_bind.mpr (wpE_modifyGet hbefore hbefore ?_)
  dsimp only
  rw [hpending]
  -- phase 2
  refine wpE_bind.mpr (wpE_attempt (wpE_append_stored (e := (key, val)) hst₁ hst.claimed hseq hlen fun d₂ wal L₂ hready hlog hpend hoff => ?_))
  have hreads := Shelf.mem hst.shelf
  have holder := Shelf.older hst.shelf
  have hlater : Later A (since ++ [(key, val)]) := hst.later.concat hst.claimed hseq hlen
  have hsup : A ⊔ History.ofList (since ++ [(key, val)]) = H.add key val :=
    sup_ofList_concat A since (key, val)
  -- phase 3
  let db₃ : Db := { db₁ with wal, memtables := db.memtables.insertIfNewer key val }
  have hst₃ : Stands cfg A (since ++ [(key, val)]) L₂ T (d₂, db₃) := by
    refine ⟨hready, hlog, hpend, ?_, hlater, ?_, hword, hst.filled⟩
    · rw [hsup]
      exact ⟨hready.holds, hoff.shelved, (hreads.congr hoff.same).put hst.claimed, holder⟩
    · intro k v hv
      rw [hsup] at hv
      rcases hv with hv | ⟨_, rfl⟩
      · exact hlt k v hv
      · show db.write.nextSeq < db₁.write.nextSeq
        rw [hclaim]
        exact Nat.lt_succ_self _
  have hafter : Safe cfg (With H (key, val)) d₂ :=
    hst₃.steady.safe.mono fun _ he => Or.inr (he.trans hsup)
  let db₄ := onWrite WriteState.unmark db₃
  have hwrite : db₄.write = ⟨db.write.nextSeq + 1, 0, false⟩ := by
    show WriteState.unmark db₁.write = _
    rw [hclaim]
    rfl
  have hsound₃ : Sound cfg (H.add key val) (d₂, db₃) :=
    ⟨A, since ++ [(key, val)], L₂, T, hsup, hst₃⟩
  have hsound : Sound cfg (H.add key val) (d₂, db₄) := hsound₃.onWrite rfl
  refine wpE_bind.mpr (wpE_modify hafter hafter (wpE_bind.mpr (wpE_modifyGet hafter hafter ?_)))
  show wpE _ _ _ _ (if db₃.memtables.isFull then flushLocked cfg else pure ()) _ _ (d₂, db₄)
  have hsame₃ : taken cfg.dir d₂ db₄.manifest.current.val =
      taken cfg.dir d db.manifest.current.val := hoff.next
  by_cases hfull : db₃.memtables.isFull = true
  · rw [if_pos hfull]
    have hwork : HasWork cfg db₄ :=
      Or.inl (frozen_freezeActive_ne_nil (activeBytes_insertIfNewer db.memtables key val))
    refine wpE_mono (wpE_flushLocked_sound (Q := Q) (E := E) hsound (by rw [hwrite]) hroom
      (fun ha => absurd ha Faults.not_any_none) (fun σ hσ hw hsame hnone => ?_)
      fun hfile _ err σ hσ hw hstays => ?_) (fun σ hσ => ?_) (fun _ _ _ hq => hq)
      fun _ _ _ hq => hq
    · refine hok σ hσ ?_ (hsame.trans hsame₃) fun hfile => ?_
      · rw [hw, hwrite]
        rfl
      · exact absurd hwork (hnone (hsame₃.trans hfile))
    · refine htaken (hsame₃.symm.trans hfile) hfull err σ hσ ?_ hstays
      rw [hw, hwrite]
      rfl
    · exact hσ.safe.mono fun _ he => Or.inr he
  · rw [if_neg hfull]
    rw [Bool.not_eq_true] at hfull
    exact wpE_pure.mpr ⟨hafter, hok _ hsound hwrite hsame₃ fun _ => hfull⟩

end Put

end AccretionDb.Db
