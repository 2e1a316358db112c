import AccretionDb.Db.Open
import AccretionDb.Db.Shelve

/-! # What a store holds

The writes of a store are a history: which value every write gave to its key.  The log
holds the last of them as a list (`since`), and `A` are those that the shelf is known to
have.  `Reads` says that memory and shelf together answer for the history, `Durable` what
of it a power loss may find on the shelf, and `Stands` that the handle is as it is between
two calls.
-/

namespace AccretionDb.Db

open CrashLogic

/-! ### Writes -/

/-- The payload that a write logs. -/
def payload (e : Entry) : Bytes := encodeRecord e.2.seq e.1 e.2.kind

/-- The map that some writes leave, oldest first. -/
def contents (es : List Entry) : Bytes → Option Bytes :=
  es.foldl (fun m e => Function.update m e.1 e.2.asValue) fun _ => none

/-- Every write is later than those before it. -/
def Rising (es : List Entry) : Prop := es.Pairwise (·.2.seq < ·.2.seq)

theorem Rising.sublist {es es' : List Entry} (h : Rising es) (hs : es'.Sublist es) : Rising es' :=
  List.Pairwise.sublist hs h

theorem sup_ofList_concat (H : History Bytes InternalValue) (es : List Entry) (e : Entry) :
    H ⊔ History.ofList (es ++ [e]) = (H ⊔ History.ofList es).add e.1 e.2 := by
  funext k v
  refine propext ⟨fun h => ?_, fun h => ?_⟩
  · rcases h with h | h
    · exact Or.inl (Or.inl h)
    · rcases List.mem_append.mp h with h | h
      · exact Or.inl (Or.inr h)
      · obtain rfl := List.mem_singleton.mp h
        exact Or.inr ⟨rfl, rfl⟩
  · rcases h with (h | h) | ⟨rfl, rfl⟩
    · exact Or.inl h
    · exact Or.inr (List.mem_append_left _ h)
    · exact Or.inr (List.mem_append_right _ List.mem_cons_self)

theorem contents_concat (es : List Entry) (e : Entry) :
    contents (es ++ [e]) = Function.update (contents es) e.1 e.2.asValue := by
  rw [contents, List.foldl_append]
  rfl

/-- **The writes describe the map that they leave.** -/
theorem means_contents {es : List Entry} (h : Rising es) :
    Means (History.ofList es) (contents es) := by
  induction es using List.reverseRecOn with
  | nil => exact fun k => Or.inl ⟨fun _ hm => List.not_mem_nil hm, rfl⟩
  | append_singleton es e ih =>
    have hlt : ∀ k w, History.ofList es k w → Stamped.stamp w < Stamped.stamp e.2 := fun k w hm =>
      (List.pairwise_append.mp h).2.2 (k, w) hm e List.mem_cons_self
    have hofList : History.ofList (es ++ [e]) = (History.ofList es).add e.1 e.2 := by
      have hsup := sup_ofList_concat (fun _ _ => False) es e
      rwa [show (fun _ _ => False : History Bytes InternalValue) = ⊥ from rfl, bot_sup_eq,
        bot_sup_eq] at hsup
    rw [hofList, contents_concat]
    exact (ih (h.sublist (List.sublist_append_left es [e]))).add hlt

/-- Every record fits its frame, and its number and the next one are words. -/
def Loggable (es : List Entry) : Prop :=
  ∀ e ∈ es, e.2.seq + 1 < 2 ^ 64 ∧ (payload e).length < 2 ^ 32

instance (es : List Entry) : Decidable (Loggable es) :=
  inferInstanceAs (Decidable (∀ e ∈ es, _ ∧ _))

theorem decodeRecord_payload {e : Entry} (hs : e.2.seq < 2 ^ 64) (hl : (payload e).length < 2 ^ 32) :
    decodeRecord (payload e) = .ok ⟨e.2.seq, e.1, e.2⟩ :=
  decodeRecord_encodeRecord hs hl

/-! ### The shelf -/

/-- A shelf that shows `A`, and nothing but `H`. -/
structure Durable (A H : History Bytes InternalValue) (v : Version) (T : Contents) : Prop where
  words : v.Words
  arranged : Arranged v T
  laidOut : v.LaidOut
  between : Between A H v.nextSeq (v.layers T)

theorem Durable.mono {A A' H H' : History Bytes InternalValue} {v : Version} {T : Contents}
    (h : Durable A H v T) (hA : A' ≤ A) (hH : H ≤ H') : Durable A' H' v T :=
  ⟨h.words, h.arranged, h.laidOut, h.between.mono hA hH⟩

section Hashed

variable [TableHashing]

/-- The readers of the cache are those of the files; ids that are not taken have none. -/
structure Cached (dir : Dir) (d : Disk) (v : Version) (T : Contents)
    (readers : Nat → Option SsTableReader) : Prop where
  below : ∀ id r, readers id = some r → id < v.nextTableId
  reader : ∀ id r, readers id = some r → id ∈ v.referencedIds →
    ∃ n, TableFile n (tableEntries (T id)) ∧
      r = readerOf (tablePath dir id) n (tableEntries (T id)) ∧
      (d (tablePath dir id)).live = some ⟨tableBytes n (tableEntries (T id)), []⟩

theorem Cached.empty (dir : Dir) (d : Disk) (v : Version) (T : Contents) :
    Cached dir d v T fun _ => none where
  below := nofun
  reader := nofun

/-- The reader of a table is kept. -/
theorem Cached.insert {dir : Dir} {d : Disk} {v : Version} {T : Contents}
    {readers : Nat → Option SsTableReader} (h : Cached dir d v T readers) {id : Nat} {n : FilterSize}
    (hlt : id < v.nextTableId) (hfile : TableFile n (tableEntries (T id)))
    (hlive : (d (tablePath dir id)).live = some ⟨tableBytes n (tableEntries (T id)), []⟩) :
    Cached dir d v T (Function.update readers id
      (some (readerOf (tablePath dir id) n (tableEntries (T id))))) where
  below i r hr := by
    by_cases he : i = id
    · rwa [he]
    · rw [Function.update_of_ne he] at hr
      exact h.below i r hr
  reader i r hr hi := by
    by_cases he : i = id
    · subst he
      rw [Function.update_self] at hr
      exact ⟨n, hfile, (Option.some.inj hr).symm, hlive⟩
    · rw [Function.update_of_ne he] at hr
      exact h.reader i r hr hi

/-- Where a version that follows refers to an old table it finds it as it was. -/
theorem Cached.next {dir : Dir} {d d' : Disk} {v v' : Version} {T T' : Contents}
    {readers : Nat → Option SsTableReader} (h : Cached dir d v T readers)
    (hs : SameLive dir v.referencedIds d d') (hnext : v.nextTableId ≤ v'.nextTableId)
    (hids : ∀ id ∈ v'.referencedIds, id ∈ v.referencedIds ∧ T' id = T id ∨ v.nextTableId ≤ id) :
    Cached dir d' v' T' readers where
  below id r hr := Nat.lt_of_lt_of_le (h.below id r hr) hnext
  reader id r hr hid := by
    rcases hids id hid with ⟨hid, hT⟩ | hle
    · rw [hT, hs id hid]
      exact h.reader id r hr hid
    · exact absurd (h.below id r hr) (Nat.not_lt.mpr hle)

/-- **Memory and shelf together** answer for the history `H`, and the shelf alone for
`A`. -/
structure Reads (dir : Dir) (A H : History Bytes InternalValue) (ms : List Versions)
    (readers : Nat → Option SsTableReader) (v : Version) (T : Contents) (d : Disk) : Prop where
  words : v.Words
  arranged : Arranged v T
  laidOut : v.LaidOut
  kept : Kept Slot.live dir d T v.referencedIds
  cached : Cached dir d v T readers
  stacked : ∃ B, A ≤ B ∧ Stacked H B v.nextSeq ms (v.layers T)

namespace Reads

variable {dir : Dir} {A A' H : History Bytes InternalValue} {ms ms' : List Versions}
variable {readers : Nat → Option SsTableReader} {v v' : Version} {T T' : Contents} {d d' : Disk}

theorem durable (h : Reads dir A H ms readers v T d) : Durable A H v T := by
  obtain ⟨B, hA, hst⟩ := h.stacked
  exact ⟨h.words, h.arranged, h.laidOut, B, hA, hst.le, hst.shelf⟩

theorem congr (h : Reads dir A H ms readers v T d) (hs : SameLive dir v.referencedIds d d') :
    Reads dir A H ms readers v T d' :=
  ⟨h.words, h.arranged, h.laidOut, h.kept.congr hs fun _ _ => rfl,
    h.cached.next hs (Nat.le_refl _) fun _ hid => Or.inl ⟨hid, rfl⟩, h.stacked⟩

/-- The memory changes, and still is in order over the shelf. -/
theorem memory (h : Reads dir A H ms readers v T d)
    (hms : ∀ B, Stacked H B v.nextSeq ms (v.layers T) → Stacked H B v.nextSeq ms' (v.layers T)) :
    Reads dir A H ms' readers v T d := by
  obtain ⟨B, hA, hst⟩ := h.stacked
  exact ⟨h.words, h.arranged, h.laidOut, h.kept, h.cached, B, hA, hms B hst⟩

theorem mono (h : Reads dir A H ms readers v T d) (hA : A' ≤ A) :
    Reads dir A' H ms readers v T d := by
  obtain ⟨B, hB, hst⟩ := h.stacked
  exact ⟨h.words, h.arranged, h.laidOut, h.kept, h.cached, B, hA.trans hB, hst⟩

end Reads

/-! ### Beside the log -/

/-- What the log does not touch: the shelf, the files of its tables and that of the next
one. -/
structure OffLog (dir : Dir) (v : Version) (T : Contents) (d d' : Disk) : Prop where
  shelved : Manifest.World.Shelved dir v T d'
  same : SameLive dir v.referencedIds d d'
  next : taken dir d' v = taken dir d v

namespace OffLog

variable {dir : Dir} {v : Version} {T : Contents} {d d' d'' : Disk}

theorem refl (h : Manifest.World.Shelved dir v T d) : OffLog dir v T d d :=
  ⟨h, .refl dir _ d, rfl⟩

theorem congr (h : OffLog dir v T d d')
    (hd : ∀ p, (∀ id, p ≠ Wal.segmentPath dir id) → (∀ id, p ≠ Wal.tmpPath dir id) →
      d'' p = d' p) : OffLog dir v T d d'' := by
  have htable : ∀ id, d'' (tablePath dir id) = d' (tablePath dir id) := fun id =>
    hd _ (fun _ => nofun) fun _ => nofun
  have hmanifest : d'' (manifestPath dir) = d' (manifestPath dir) :=
    hd _ (fun _ => nofun) fun _ => nofun
  refine ⟨⟨h.shelved.live.congr ?_ ?_ ?_, h.shelved.durable.congr ?_ ?_ ?_⟩,
    h.same.trans fun id _ => by rw [htable], (taken_congr ?_).trans h.next⟩
  · rw [hmanifest]
  · exact fun id _ => by rw [htable]
  · exact fun _ _ => rfl
  · rw [hmanifest]
  · exact fun id _ => by rw [htable]
  · exact fun _ _ => rfl
  · rw [htable]

theorem commit (h : OffLog dir v T d d') : OffLog dir v T d (d'.commit dir) :=
  ⟨.commit h.shelved.live, h.same.trans (sameLive_commit _),
    (taken_congr (Disk.live_commit ..)).trans h.next⟩

theorem beside (dir : Dir) (v : Version) (T : Contents) (d : Disk) :
    Wal.Beside dir (OffLog dir v T d) where
  update d' p s hp h := by
    refine h.congr fun q hq hq' => Function.update_of_ne ?_ ..
    rintro rfl
    obtain ⟨id, rfl | rfl⟩ := hp
    · exact hq id rfl
    · exact hq' id rfl
  commit _ h := h.commit

end OffLog

/-- What the store needs of its files. -/
theorem upkeep (dir : Dir) (L : Wal.Layout) (A H : History Bytes InternalValue) (ms : List Versions)
    (readers : Nat → Option SsTableReader) :
    Upkeep dir (fun d => Wal.Holds dir d L) (Durable A H) (Reads dir A H ms readers) where
  log _ _ hs h := h.congr hs
  commit _ h := h.commit
  congr _ _ _ _ hs h := h.congr hs
  durable _ _ _ h := h.durable
  words _ _ _ h := h.words
  kept _ _ _ h := h.kept
  arranged _ _ _ h := h.arranged

/-! ### Between two calls -/

/-- What a power loss may find: a shelf, and a log of which at least `k` records are left.
The shelf knows of no more than the first `n` of them. -/
structure Spared (cfg : Config) (A : History Bytes InternalValue) (since : List Entry) (k n : Nat)
    (v : Version) (T : Contents) (d : Disk) : Prop where
  image : Image Slot.durable cfg.dir d v T
  durable : Durable A (A ⊔ History.ofList (since.take n)) v T
  log : Wal.DurLog cfg.dir d k (since.map payload)

/-- The writes in the log are in order, and none is older than what the shelf is known to
have. -/
structure Later (A : History Bytes InternalValue) (since : List Entry) : Prop where
  rising : Rising since
  later : ∀ k v w, A k v → History.ofList since k w → Older v w
  loggable : Loggable since

omit [TableHashing] in
theorem Later.sublist {A : History Bytes InternalValue} {es es' : List Entry} (h : Later A es)
    (hs : es'.Sublist es) : Later A es' where
  rising := h.rising.sublist hs
  later k v w hv hw := h.later k v w hv (hs.subset hw)
  loggable e he := h.loggable e (hs.subset he)

/-- The shelf and the log are in order, and the memory is over the shelf. -/
def Stored (cfg : Config) (A H : History Bytes InternalValue) (L : Wal.Layout) (T : Contents)
    (σ : Disk × Db) : Prop :=
  Shelf cfg.dir (fun d => Wal.Holds cfg.dir d L)
    (Reads cfg.dir A H σ.2.memtables.layers σ.2.readers) T (σ.1, σ.2.manifest)

/-- Holding a version is not noticed. -/
theorem Stored.hold {cfg : Config} {A H : History Bytes InternalValue} {L : Wal.Layout}
    {T : Contents} {d : Disk} {db : Db} (h : Stored cfg A H L T (d, db)) {m : Manifest}
    (hv : m.versions = db.manifest.versions) :
    Stored cfg A H L T (d, { db with manifest := m }) := Shelf.hold h hv

/-- **The handle between two calls**: the log is in order and the shelf is, the memory has
what the shelf has not, and every sequence number that was given is behind the next one. -/
structure Stands (cfg : Config) (A : History Bytes InternalValue) (since : List Entry)
    (L : Wal.Layout) (T : Contents) (σ : Disk × Db) : Prop where
  ready : Wal.Ready cfg.wal σ.1 σ.2.wal L []
  log : L.log = since.map payload
  pending : cfg.options.durability.isDurable → L.pending = []
  shelf : Stored cfg A (A ⊔ History.ofList since) L T σ
  later : Later A since
  claimed : ∀ k v, (A ⊔ History.ofList since) k v → v.seq < σ.2.write.nextSeq
  word : σ.2.write.nextSeq < 2 ^ 64
  filled : ∀ t ∈ σ.2.memtables.frozen, t.val.snapshot ≠ []

/-- The handle stands, and `H` is all that was written. -/
def Sound (cfg : Config) (H : History Bytes InternalValue) (σ : Disk × Db) : Prop :=
  ∃ A since L T, A ⊔ History.ofList since = H ∧ Stands cfg A since L T σ

/-- At every moment of a call that writes nothing: the handle answers for `H`, and in a
durable mode that is what a power loss leaves. -/
structure Steady (cfg : Config) (H : History Bytes InternalValue) (σ : Disk × Db) : Prop where
  reads : ∃ A T, Reads cfg.dir A H σ.2.memtables.layers σ.2.readers σ.2.manifest.current.val T σ.1
  spared : ∃ A since k v T, A ⊔ History.ofList since = H ∧ Later A since ∧
    Spared cfg A since k since.length v T σ.1 ∧
    (cfg.options.durability.isDurable → since.length ≤ k)

section Phases

variable {cfg : Config} {A : History Bytes InternalValue} {since : List Entry} {L : Wal.Layout}
variable {d : Disk} {db : Db} {T : Contents}

/-- What is on the way from one version to the next is steady. -/
theorem Steady.of_held (hlog : L.log = since.map payload)
    (hpend : cfg.options.durability.isDurable → L.pending = []) (hlater : Later A since)
    (h : Held cfg.dir (fun d => Wal.Holds cfg.dir d L) (Durable A (A ⊔ History.ofList since))
      (Reads cfg.dir A (A ⊔ History.ofList since) db.memtables.layers db.readers)
      (d, db.manifest)) : Steady cfg (A ⊔ History.ofList since) (d, db) := by
  obtain ⟨hj, ⟨v, T₀, hD, himage⟩, T, hM⟩ := h
  refine ⟨⟨A, T, hM⟩, A, since, L.durableLen, v, T₀, rfl, hlater, ⟨himage, ?_, ?_⟩, fun hdur => ?_⟩
  · rwa [List.take_length]
  · have hspares := hj.durLog []
    rwa [List.append_nil, hlog] at hspares
  · rw [Wal.Layout.durableLen_of_pending (hpend hdur), hlog, List.length_map]

theorem Stands.steady {σ : Disk × Db} (h : Stands cfg A since L T σ) :
    Steady cfg (A ⊔ History.ofList since) σ :=
  .of_held h.log h.pending h.later (Shelf.held h.shelf (upkeep ..))

theorem Sound.steady {H : History Bytes InternalValue} {σ : Disk × Db} (h : Sound cfg H σ) :
    Steady cfg H σ := by
  obtain ⟨A, since, L, T, rfl, hst⟩ := h
  exact hst.steady

end Phases

/-! ### Power loss -/

/-- **What a power loss leaves**: a shelf and a part of the log.  In a durable mode the
log has all that the shelf may know of, and the two are some history that is `ok`. -/
def Safe (cfg : Config) (ok : History Bytes InternalValue → Prop) (d : Disk) : Prop :=
  ∃ A since k n v T, Later A since ∧ Spared cfg A since k n v T d ∧
    (cfg.options.durability.isDurable →
      n ≤ k ∧ ∀ j, k ≤ j → ok (A ⊔ History.ofList (since.take j)))

theorem Safe.mono {cfg : Config} {ok ok' : History Bytes InternalValue → Prop} {d : Disk}
    (h : Safe cfg ok d) (hok : ∀ H, ok H → ok' H) : Safe cfg ok' d := by
  obtain ⟨A, since, k, n, v, T, hlater, hs, hj⟩ := h
  exact ⟨A, since, k, n, v, T, hlater, hs, fun hdur =>
    ⟨(hj hdur).1, fun j hkj => hok _ ((hj hdur).2 j hkj)⟩⟩

/-- In a durable mode the log of a steady handle has nothing to lose. -/
theorem Steady.synced {cfg : Config} {H : History Bytes InternalValue} {σ : Disk × Db}
    (h : Steady cfg H σ) (hdur : cfg.options.durability.isDurable) {id : Nat} {g : Blob}
    (hg : (σ.1 (Wal.segmentPath cfg.dir id)).durable = some g) : g.tail = [] := by
  obtain ⟨A, since, k, v, T, -, -, hs, hk⟩ := h.spared
  obtain ⟨gs, hgs, hsurv⟩ := hs.log
  refine hsurv.tail_eq_nil ?_ g (List.mem_map_of_mem ((hgs.mem id g).mpr hg))
  rw [List.length_map]
  exact hk hdur

theorem Steady.safe {cfg : Config} {H : History Bytes InternalValue} {σ : Disk × Db}
    (h : Steady cfg H σ) : Safe cfg (· = H) σ.1 := by
  obtain ⟨A, since, k, v, T, hH, hlater, hs, hk⟩ := h.spared
  refine ⟨A, since, k, since.length, v, T, hlater, hs, fun hdur => ⟨hk hdur, fun j hj => ?_⟩⟩
  rw [List.take_of_length_le ((hk hdur).trans hj)]
  exact hH

end Hashed

end AccretionDb.Db
