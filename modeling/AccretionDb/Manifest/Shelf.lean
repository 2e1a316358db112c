import AccretionDb.Compaction.Tier
import AccretionDb.Manifest.Install

/-! # The directory of a version

`Image view dir d v T` says that a directory holds the version `v`: its manifest file
encodes `v`, and every table of `v` is there, whole and synced, with the entries that
`T` gives it.  `view` picks the files, those the process sees or those a power loss
leaves.
-/

namespace AccretionDb

open CrashLogic

variable [TableHashing]

/-- The tables are there, whole and synced. -/
def Kept (view : Slot → Option Blob) (dir : Dir) (d : Disk) (T : Contents) (ids : List Nat) :
    Prop :=
  ∀ id ∈ ids, ∃ c, view (d (tablePath dir id)) = some ⟨c, []⟩ ∧ Table c (T id)

/-- The directory holds the version.  Without a manifest it holds the empty one. -/
structure Image (view : Slot → Option Blob) (dir : Dir) (d : Disk) (v : Version) (T : Contents) :
    Prop where
  manifest : view (d (manifestPath dir)) = some ⟨encodeVersion v, []⟩ ∨
    view (d (manifestPath dir)) = none ∧ v = .empty
  decodes : decodeVersion (encodeVersion v) = .ok v
  tables : Kept view dir d T v.referencedIds

omit [TableHashing] in
theorem tablePath_inj {dir : Dir} {i j : Nat} (h : tablePath dir i = tablePath dir j) : i = j := by
  injection h with _ h
  injection h

omit [TableHashing] in
theorem tablePath_ne_manifest (dir : Dir) (id : Nat) : tablePath dir id ≠ manifestPath dir := by
  intro h
  injection h with _ h
  cases h

omit [TableHashing] in
theorem tablePath_ne_tmp (dir : Dir) (id : Nat) : tablePath dir id ≠ manifestTmpPath dir := by
  intro h
  injection h with _ h
  cases h

namespace Kept

variable {view : Slot → Option Blob} {dir : Dir} {d d' : Disk} {T T' : Contents} {ids : List Nat}

theorem congr (h : Kept view dir d T ids)
    (hd : ∀ id ∈ ids, view (d' (tablePath dir id)) = view (d (tablePath dir id)))
    (hT : ∀ id ∈ ids, T' id = T id) : Kept view dir d' T' ids := by
  intro id hid
  obtain ⟨c, hc, ht⟩ := h id hid
  exact ⟨c, (hd id hid).trans hc, (hT id hid).symm ▸ ht⟩

theorem isSome (h : Kept view dir d T ids) {id : Nat} (hid : id ∈ ids) :
    (view (d (tablePath dir id))).isSome := by
  obtain ⟨c, hc, _⟩ := h id hid
  rw [hc]
  rfl

end Kept

namespace Image

variable {view : Slot → Option Blob} {dir : Dir} {d d' : Disk} {v : Version} {T T' : Contents}

theorem congr (h : Image view dir d v T)
    (hm : view (d' (manifestPath dir)) = view (d (manifestPath dir)))
    (hd : ∀ id ∈ v.referencedIds, view (d' (tablePath dir id)) = view (d (tablePath dir id)))
    (hT : ∀ id ∈ v.referencedIds, T' id = T id) : Image view dir d' v T' where
  manifest := hm.symm ▸ h.manifest
  decodes := h.decodes
  tables := h.tables.congr hd hT

/-- The directory of a new database. -/
theorem empty (hm : view (d (manifestPath dir)) = none) (T : Contents) :
    Image view dir d .empty T where
  manifest := Or.inr ⟨hm, rfl⟩
  decodes := decodeVersion_encodeVersion Version.words_empty Version.lengthsFit_empty
  tables _ hid := absurd hid List.not_mem_nil

/-- The new manifest has its name, and is about to become durable. -/
theorem switched (hw : v.Words) (hf : v.LengthsFit) (hT : Kept Slot.live dir d T v.referencedIds)
    (s : Slot) : Image Slot.live dir (Manifest.switched d dir v s) v T where
  manifest := by
    rw [Manifest.switched, Function.update_of_ne Manifest.manifest_ne_tmp, Disk.live_put]
    exact Or.inl rfl
  decodes := decodeVersion_encodeVersion hw hf
  tables := hT.congr (fun id _ => by
    rw [Manifest.switched, Function.update_of_ne (tablePath_ne_tmp dir id),
      Disk.put_of_ne (tablePath_ne_manifest dir id)]) fun _ _ => rfl

/-- What the process sees becomes durable. -/
theorem commit (h : Image Slot.live dir d v T) :
    Image Slot.durable dir (d.commit dir) v T where
  manifest := by
    rw [Disk.durable_commit (show (manifestPath dir).dir = dir from rfl)]
    exact h.manifest
  decodes := h.decodes
  tables := fun id hid => by
    rw [Disk.durable_commit (show (tablePath dir id).dir = dir from rfl)]
    exact h.tables id hid

theorem commit_live (h : Image Slot.live dir d v T) : Image Slot.live dir (d.commit dir) v T :=
  h.congr (by rw [Disk.live_commit]) (fun _ _ => by rw [Disk.live_commit]) fun _ _ => rfl

/-- Garbage collection leaves the tables of a live version alone. -/
theorem swept {live : List Nat} (h : Image Slot.live dir d v T)
    (hd : Manifest.Swept dir live d d') (hids : ∀ id ∈ v.referencedIds, id ∈ live) :
    Image Slot.live dir d' v T := by
  refine h.congr ?_ (fun id hid => ?_) fun _ _ => rfl
  · rcases hd (manifestPath dir) with he | ⟨_, _, id, hid, _⟩
    · rw [he]
    · cases hid
  · rcases hd (tablePath dir id) with he | ⟨_, _, i, hi, hno⟩
    · rw [he]
    · obtain rfl := eq_of_parseTableId hi
      exact absurd (hids _ hid) hno

/-- What is durable stays durable until the names are synced. -/
theorem durable_congr (h : Image Slot.durable dir d v T)
    (hd : ∀ p, (d' p).durable = (d p).durable) : Image Slot.durable dir d' v T :=
  h.congr (hd _) (fun _ _ => hd _) fun _ _ => rfl

/-- **A power loss leaves the version that was durable.** -/
theorem crash (h : Image Slot.durable dir d v T) (hc : d.Crash d') :
    Image Slot.live dir d' v T ∧ Image Slot.durable dir d' v T := by
  have hsome : ∀ {p c}, (d p).durable = some ⟨c, []⟩ → d' p = .kept ⟨c, []⟩ := fun {p c} hp => by
    have := hc p
    rw [hp] at this
    obtain ⟨k, hk, he⟩ := this
    rw [he, hk.of_tail_eq_nil rfl]
  have hnone : ∀ {p}, (d p).durable = none → d' p = .absent := fun {p} hp => by
    have := hc p
    rwa [hp] at this
  have hboth : ∀ view : Slot → Option Blob, (∀ b, view (.kept b) = some b) →
      view .absent = none → Image view dir d' v T := fun view hkept habsent => by
    refine ⟨?_, h.decodes, fun id hid => ?_⟩
    · rcases h.manifest with hm | ⟨hm, he⟩
      · rw [hsome hm, hkept]
        exact Or.inl rfl
      · rw [hnone hm, habsent]
        exact Or.inr ⟨rfl, he⟩
    · obtain ⟨c, hc, ht⟩ := h.tables id hid
      exact ⟨c, by rw [hsome hc, hkept], ht⟩
  exact ⟨hboth _ (fun _ => rfl) rfl, hboth _ (fun _ => rfl) rfl⟩

end Image

/-! ### What changes no durable file -/

omit [TableHashing] in
theorem Manifest.Swept.durable {dir : Dir} {live : List Nat} {d d' : Disk}
    (h : Manifest.Swept dir live d d') (p : Path) : (d' p).durable = (d p).durable := by
  rcases h p with he | ⟨_, he, _⟩
  · rw [he]
  · rw [he, Slot.durable_unlink]

end AccretionDb
