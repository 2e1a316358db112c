import AccretionDb.Storage.SimFs
import AccretionDb.Storage.Disk

/-! # The simulator refines the abstract storage

`SimFs.disk` forgets inode numbers, counters and the generator, and reads off for
every path the slot it stands in.  On states where no two paths share an inode
(`Tidy`) every operation the abstract storage gives a meaning does the same thing
on both levels, and a power loss leaves one of the disks `Disk.Crash` allows.
-/

namespace AccretionDb

open CrashLogic

def InodeState.blob (n : InodeState) : Blob := ⟨n.durable, n.live.drop n.durable.length⟩

namespace SimFs

/-- The slot of a path. -/
def slot (s : SimFs) (p : Path) : Slot :=
  match (s.files p).liveInode, (s.files p).durableInode with
  | none, none => .absent
  | some i, none => .fresh (s.inodes i).blob
  | none, some j => .ghost (s.inodes j).blob
  | some i, some j => if i = j then .kept (s.inodes i).blob
      else .shadow (s.inodes i).blob (s.inodes j).blob

def disk (s : SimFs) : Disk := s.slot

/-- The path names the inode, now or after a crash. -/
def Bound (s : SimFs) (p : Path) (i : Nat) : Prop :=
  (s.files p).liveInode = some i ∨ (s.files p).durableInode = some i

/-- No inode is bound to two paths, every inode's synced bytes are a prefix of its
bytes, and no crash is armed. -/
structure Tidy (s : SimFs) : Prop where
  mem : ∀ p i, s.Bound p i → p ∈ s.paths
  nodup : s.paths.Nodup
  lt : ∀ p i, s.Bound p i → i < s.nextInode
  inj : ∀ p q i, s.Bound p i → s.Bound q i → p = q
  durable_prefix : ∀ i, (s.inodes i).durable <+: (s.inodes i).live
  unarmed : s.crashAfter = none

theorem new_tidy (rng : Nat → Nat) : (SimFs.new rng).Tidy where
  mem := by rintro p i (h | h) <;> cases h
  nodup := List.nodup_nil
  lt := by rintro p i (h | h) <;> cases h
  inj := by rintro p q i (h | h) <;> cases h
  durable_prefix := fun _ => List.prefix_refl _
  unarmed := rfl

theorem live_slot (s : SimFs) (p : Path) :
    (s.slot p).live = (s.files p).liveInode.map fun i => (s.inodes i).blob := by
  unfold slot
  cases (s.files p).liveInode <;> cases (s.files p).durableInode <;> try rfl
  rename_i i j
  by_cases h : i = j
  · simp only [if_pos h]
    rfl
  · simp only [if_neg h]
    rfl

theorem durable_slot (s : SimFs) (p : Path) :
    (s.slot p).durable = (s.files p).durableInode.map fun i => (s.inodes i).blob := by
  unfold slot
  cases (s.files p).liveInode <;> cases (s.files p).durableInode <;> try rfl
  rename_i i j
  by_cases h : i = j
  · simp only [if_pos h]
    rw [h]
    rfl
  · simp only [if_neg h]
    rfl

theorem linked_slot {s : SimFs} {p : Path} {i : Nat} (hl : (s.files p).liveInode = some i) :
    (s.slot p).linked ↔ (s.files p).durableInode = some i := by
  unfold slot
  rw [hl]
  cases hd : (s.files p).durableInode with
  | none => simp [Slot.linked]
  | some j =>
    by_cases h : i = j
    · simp [h, Slot.linked]
    · have h' : ¬ j = i := fun e => h e.symm
      simp [h, h', Slot.linked]

/-- A slot only depends on the bindings of its path and the inodes they name. -/
theorem slot_congr {s s' : SimFs} {p : Path} (hf : s'.files p = s.files p)
    (hi : ∀ i, s.Bound p i → s'.inodes i = s.inodes i) : s'.slot p = s.slot p := by
  unfold slot
  rw [hf]
  cases h1 : (s.files p).liveInode with
  | none =>
    cases h2 : (s.files p).durableInode with
    | none => rfl
    | some j => simp only [hi j (Or.inr h2)]
  | some i =>
    cases h2 : (s.files p).durableInode with
    | none => simp only [hi i (Or.inl h1)]
    | some j => simp only [hi i (Or.inl h1), hi j (Or.inr h2)]

theorem content_blob {n : InodeState} (h : n.durable <+: n.live) : n.blob.content = n.live := by
  obtain ⟨t, ht⟩ := h
  rw [InodeState.blob, Blob.content_mk, ← ht, List.drop_left]

theorem placePath_perm (p : Path) : ∀ ps : List Path, (placePath p ps).Perm (p :: ps) := by
  intro ps
  induction ps with
  | nil => exact .refl _
  | cons r rs ih =>
    unfold placePath
    by_cases h : p.le r = true
    · rw [if_pos h]
    · rw [if_neg h]
      exact (ih.cons r).trans (.swap p r rs)

theorem mem_insertPath {p q : Path} {ps : List Path} : q ∈ insertPath p ps ↔ q = p ∨ q ∈ ps := by
  unfold insertPath
  by_cases h : p ∈ ps
  · rw [if_pos h]
    exact ⟨Or.inr, fun hq => hq.elim (fun e => e ▸ h) id⟩
  · rw [if_neg h, (placePath_perm p ps).mem_iff, List.mem_cons]

theorem nodup_insertPath {p : Path} {ps : List Path} (hps : ps.Nodup) : (insertPath p ps).Nodup := by
  unfold insertPath
  by_cases h : p ∈ ps
  · rwa [if_pos h]
  · rw [if_neg h, (placePath_perm p ps).nodup_iff]
    exact List.nodup_cons.mpr ⟨h, hps⟩

/-! ### Collecting inodes, and the count of operations -/

theorem referenced_of_bound {s : SimFs} {p : Path} {i : Nat} (hs : s.Tidy) (h : s.Bound p i) :
    s.referenced i = true := by
  refine List.any_eq_true.mpr ⟨p, hs.mem p i h, ?_⟩
  rcases h with h | h <;> simp [h]

theorem collect_tidy {s : SimFs} (hs : s.Tidy) : s.collectUnreferencedInodes.Tidy :=
  { hs with
    durable_prefix := by
      intro i
      simp only [collectUnreferencedInodes]
      by_cases h : s.referenced i = true
      · simpa [h] using hs.durable_prefix i
      · simp [h, InodeState.default] }

theorem disk_collect {s : SimFs} (hs : s.Tidy) : s.collectUnreferencedInodes.disk = s.disk := by
  funext p
  exact slot_congr rfl fun i h => by simp [collectUnreferencedInodes, referenced_of_bound hs h]

theorem bump_eq {s : SimFs} (hs : s.Tidy) : s.bump = { s with opCount := s.opCount + 1 } := by
  simp only [bump, hs.unarmed]

theorem bump_tidy {s : SimFs} (hs : s.Tidy) : s.bump.Tidy := by
  rw [bump_eq hs]
  exact { hs with }

theorem disk_bump {s : SimFs} (hs : s.Tidy) : s.bump.disk = s.disk := by
  rw [bump_eq hs]
  rfl

/-! ### Editing an inode -/

theorem setInode_tidy {s : SimFs} (hs : s.Tidy) (i : Nat) {n : InodeState}
    (hn : n.durable <+: n.live) : (s.setInode i n).Tidy :=
  { hs with
    durable_prefix := by
      intro j
      simp only [setInode]
      by_cases h : j = i
      · simpa [h] using hn
      · simpa [h] using hs.durable_prefix j }

/-- Changing the bytes of the inode a path is bound to edits the path's slot and
no other. -/
theorem disk_setInode {s : SimFs} (hs : s.Tidy) {p : Path} {i : Nat} {n : InodeState}
    (hp : (s.files p).liveInode = some i) (f : Blob → Blob) (hf : n.blob = f (s.inodes i).blob) :
    (s.setInode i n).disk = Function.update s.disk p ((s.disk p).edit f) := by
  funext q
  by_cases hq : q = p
  · subst hq
    rw [Function.update_self]
    show slot _ _ = (slot _ _).edit f
    unfold slot
    simp only [setInode, hp]
    cases hd : (s.files q).durableInode with
    | none => simp [hf, Slot.edit]
    | some j =>
      by_cases hij : i = j
      · subst hij
        simp [hf, Slot.edit]
      · have hji : ¬ j = i := fun e => hij e.symm
        simp [hij, hji, hf, Slot.edit]
  · rw [Function.update_of_ne hq]
    refine slot_congr rfl fun j h => ?_
    have hne : j ≠ i := fun e => hq (hs.inj q p i (e ▸ h) (Or.inl hp))
    simp [setInode, hne]

theorem append_refines {s : SimFs} (hs : s.Tidy) {p : Path} {i : Nat}
    (hp : (s.files p).liveInode = some i) (data : Bytes) :
    (s.append p data).2.Tidy ∧
      (s.append p data).2.disk = Function.update s.disk p ((s.disk p).edit (·.append data)) := by
  let s₁ : SimFs := { s with nextAppendSeq := s.nextAppendSeq + 1 }
  let n : InodeState := { s.inodes i with
    live := (s.inodes i).live ++ data, lastAppendSeq := some s.nextAppendSeq }
  have h1 : s₁.Tidy := { hs with }
  have hpre : (s.inodes i).durable <+: (s.inodes i).live := hs.durable_prefix i
  have hn : n.blob = (s₁.inodes i).blob.append data := by
    simp only [n, s₁, InodeState.blob, Blob.append, List.drop_append_of_le_length hpre.length_le]
  have h2 : (s₁.setInode i n).Tidy :=
    setInode_tidy h1 i (hpre.trans (List.prefix_append _ data))
  have hr : (s.append p data).2 = (s₁.setInode i n).bump := by
    simp only [append, hp]
    rfl
  rw [hr]
  exact ⟨bump_tidy h2, (disk_bump h2).trans (disk_setInode h1 hp (·.append data) hn)⟩

theorem syncFile_refines {s : SimFs} (hs : s.Tidy) {p : Path} {i : Nat}
    (hp : (s.files p).liveInode = some i) :
    (s.syncFile p).2.Tidy ∧
      (s.syncFile p).2.disk = Function.update s.disk p ((s.disk p).edit Blob.sync) := by
  let n : InodeState := { s.inodes i with
    durable := (s.inodes i).live, lastAppendSeq := none }
  have hn : n.blob = (s.inodes i).blob.sync := by
    rw [Blob.sync, content_blob (hs.durable_prefix i)]
    simp only [n, InodeState.blob, List.drop_length]
  have h1 : (s.setInode i n).Tidy := setInode_tidy hs i (List.prefix_refl _)
  have hr : (s.syncFile p).2 = (s.setInode i n).bump := by
    simp only [syncFile, hp]
    rfl
  rw [hr]
  exact ⟨bump_tidy h1, (disk_bump h1).trans (disk_setInode hs hp Blob.sync hn)⟩

/-! ### Changing the bindings -/

/-- Bindings may go away or stay; a path may also take a live binding from
another one that then has neither. -/
theorem rebind_tidy {s s' : SimFs} (hs : s.Tidy) (owner : ∀ p i, s'.Bound p i → ∃ q, s.Bound q i)
    (inj : ∀ p q i, s'.Bound p i → s'.Bound q i → p = q)
    (mem : ∀ p i, s'.Bound p i → p ∈ s'.paths) (nodup : s'.paths.Nodup)
    (hi : s'.inodes = s.inodes) (hn : s'.nextInode = s.nextInode)
    (hc : s'.crashAfter = s.crashAfter) : s'.Tidy where
  mem := mem
  nodup := nodup
  lt p i h := by
    obtain ⟨q, hq⟩ := owner p i h
    rw [hn]
    exact hs.lt q i hq
  inj := inj
  durable_prefix := hi ▸ hs.durable_prefix
  unarmed := hc.trans hs.unarmed

theorem delete_refines {s : SimFs} (hs : s.Tidy) {p : Path} {i : Nat}
    (hp : (s.files p).liveInode = some i) :
    (s.delete p).2.Tidy ∧ (s.delete p).2.disk = Function.update s.disk p (s.disk p).unlink := by
  let s₁ : SimFs := s.setFile p { s.files p with liveInode := none }
  have hsub : ∀ q j, s₁.Bound q j → s.Bound q j := by
    intro q j h
    by_cases hq : q = p
    · subst hq
      simp only [Bound, s₁, setFile, if_pos] at h
      rcases h with h | h
      · cases h
      · exact Or.inr h
    · simpa [Bound, s₁, setFile, hq] using h
  have h1 : s₁.Tidy :=
    rebind_tidy hs (fun q j h => ⟨q, hsub q j h⟩)
      (fun q r j h h' => hs.inj q r j (hsub q j h) (hsub r j h'))
      (fun q j h => mem_insertPath.mpr (Or.inr (hs.mem q j (hsub q j h))))
      (nodup_insertPath hs.nodup) rfl rfl rfl
  have hd : s₁.disk = Function.update s.disk p (s.disk p).unlink := by
    funext q
    by_cases hq : q = p
    · subst hq
      rw [Function.update_self]
      show slot _ _ = (slot _ _).unlink
      unfold slot
      simp only [s₁, setFile, if_pos, hp]
      cases (s.files q).durableInode with
      | none => rfl
      | some j =>
        by_cases hij : i = j
        · subst hij
          simp [Slot.unlink]
        · simp [hij, Slot.unlink]
    · rw [Function.update_of_ne hq]
      exact slot_congr (by simp [s₁, setFile, hq]) fun j _ => rfl
  have hr : (s.delete p).2 = s₁.collectUnreferencedInodes.bump := by
    simp only [delete, hp]
    rfl
  rw [hr]
  exact ⟨bump_tidy (collect_tidy h1),
    (disk_bump (collect_tidy h1)).trans ((disk_collect h1).trans hd)⟩

theorem syncDir_refines {s : SimFs} (hs : s.Tidy) (d : Dir) :
    (s.syncDir d).2.Tidy ∧ (s.syncDir d).2.disk = s.disk.commit d := by
  let files : Path → PathState := fun p =>
    if p.dir = d then ⟨(s.files p).liveInode, (s.files p).liveInode⟩ else s.files p
  let paths := s.paths.filter fun p =>
    (files p).liveInode.isSome || (files p).durableInode.isSome
  let s₁ : SimFs := { s with files, paths }
  have hsub : ∀ q j, s₁.Bound q j → s.Bound q j := by
    intro q j h
    by_cases hq : q.dir = d
    · simp only [Bound, s₁, files, hq, if_true, or_self] at h
      exact Or.inl h
    · simpa [Bound, s₁, files, hq] using h
  have h1 : s₁.Tidy := by
    refine rebind_tidy hs (fun q j h => ⟨q, hsub q j h⟩)
      (fun q r j h h' => hs.inj q r j (hsub q j h) (hsub r j h')) ?_
      (hs.nodup.filter _) rfl rfl rfl
    intro q j h
    refine List.mem_filter.mpr ⟨hs.mem q j (hsub q j h), ?_⟩
    rcases h with h | h
    · simp only [s₁] at h
      simp [h]
    · simp only [s₁] at h
      simp [h]
  have hd : s₁.disk = s.disk.commit d := by
    funext q
    show slot _ _ = if q.dir = d then (slot _ _).commit else slot _ _
    by_cases hq : q.dir = d
    · rw [if_pos hq]
      unfold slot
      simp only [s₁, files, hq, if_true]
      cases (s.files q).liveInode with
      | none => cases (s.files q).durableInode <;> rfl
      | some i =>
        cases (s.files q).durableInode with
        | none => simp [Slot.commit]
        | some j => by_cases hij : i = j <;> simp [hij, Slot.commit]
    · rw [if_neg hq]
      exact slot_congr (by simp [s₁, files, hq]) fun j _ => rfl
  exact ⟨bump_tidy (collect_tidy h1),
    (disk_bump (collect_tidy h1)).trans ((disk_collect h1).trans hd)⟩

theorem rename_refines {s : SimFs} (hs : s.Tidy) {src dst : Path} {i : Nat}
    (hp : (s.files src).liveInode = some i) (hne : src ≠ dst) (hl : ¬ (s.disk src).linked) :
    (s.rename src dst).2.Tidy ∧
      (s.rename src dst).2.disk =
        Function.update (Function.update s.disk dst ((s.disk dst).link (s.inodes i).blob)) src
          (s.disk src).unlink := by
  let s₁ : SimFs := s.setFile dst { s.files dst with liveInode := some i }
  let s₂ : SimFs := s₁.setFile src { s₁.files src with liveInode := none }
  have hne' : dst ≠ src := hne.symm
  have hsrc : (s.files src).durableInode ≠ some i := fun h => hl ((linked_slot hp).mpr h)
  have hlive : ∀ q, (s₂.files q).liveInode =
      if q = src then none else if q = dst then some i else (s.files q).liveInode := by
    intro q
    by_cases h1 : q = src <;> by_cases h2 : q = dst <;> simp [s₂, s₁, setFile, h1, h2, hne']
  have hdur : ∀ q, (s₂.files q).durableInode = (s.files q).durableInode := by
    intro q
    by_cases h1 : q = src <;> by_cases h2 : q = dst <;> simp [s₂, s₁, setFile, h1, h2, hne, hne']
  -- `i` now belongs to `dst`; every other inode keeps its path
  have hown : ∀ q j, s₂.Bound q j → s.Bound q j ∧ j ≠ i ∨ q = dst ∧ j = i := by
    intro q j h
    rw [Bound, hlive, hdur] at h
    by_cases h1 : q = src
    · rw [if_pos h1] at h
      rcases h with h | h
      · cases h
      · exact Or.inl ⟨Or.inr h, fun e => hsrc (h1 ▸ e ▸ h)⟩
    · rw [if_neg h1] at h
      by_cases h2 : q = dst
      · rw [if_pos h2] at h
        rcases h with h | h
        · exact Or.inr ⟨h2, (Option.some.inj h).symm⟩
        · refine Or.inl ⟨Or.inr h, fun e => h1 (hs.inj q src j (Or.inr h) (Or.inl (e ▸ hp)))⟩
      · rw [if_neg h2] at h
        exact Or.inl ⟨h, fun e => h1 (hs.inj q src j h (Or.inl (e ▸ hp)))⟩
  have h2 : s₂.Tidy := by
    refine rebind_tidy hs (fun q j h => ?_) (fun q r j h h' => ?_) (fun q j h => ?_)
      (nodup_insertPath (nodup_insertPath hs.nodup)) rfl rfl rfl
    · rcases hown q j h with ⟨hb, _⟩ | ⟨_, rfl⟩
      · exact ⟨q, hb⟩
      · exact ⟨src, Or.inl hp⟩
    · rcases hown q j h with ⟨hb, hj⟩ | ⟨rfl, rfl⟩
      · rcases hown r j h' with ⟨hb', _⟩ | ⟨_, rfl⟩
        · exact hs.inj q r j hb hb'
        · exact absurd rfl hj
      · rcases hown r j h' with ⟨_, hj⟩ | ⟨rfl, _⟩
        · exact absurd rfl hj
        · rfl
    · rcases hown q j h with ⟨hb, _⟩ | ⟨rfl, _⟩
      · exact mem_insertPath.mpr (Or.inr (mem_insertPath.mpr (Or.inr (hs.mem q j hb))))
      · exact mem_insertPath.mpr (Or.inr (mem_insertPath.mpr (Or.inl rfl)))
  have hd : s₂.disk =
      Function.update (Function.update s.disk dst ((s.disk dst).link (s.inodes i).blob)) src
        (s.disk src).unlink := by
    funext q
    by_cases h1 : q = src
    · subst h1
      rw [Function.update_self]
      show slot _ _ = (slot _ _).unlink
      unfold slot
      rw [hlive, hdur, if_pos rfl, hp]
      cases hj : (s.files q).durableInode with
      | none => rfl
      | some j =>
        have hij : ¬ i = j := fun e => hsrc (e ▸ hj)
        simp [hij, Slot.unlink, s₂, s₁, setFile]
    · rw [Function.update_of_ne h1]
      by_cases h2 : q = dst
      · subst h2
        rw [Function.update_self]
        show slot _ _ = (slot _ _).link _
        unfold slot
        rw [hlive, hdur, if_neg h1, if_pos rfl]
        cases hj : (s.files q).durableInode with
        | none => cases (s.files q).liveInode <;> rfl
        | some j =>
          have hij : ¬ i = j := fun e => h1 (hs.inj q src i (Or.inr (e ▸ hj)) (Or.inl hp))
          cases hk : (s.files q).liveInode with
          | none => simp [hij, Slot.link, s₂, s₁, setFile]
          | some k => by_cases hkj : k = j <;> simp [hij, hkj, Slot.link, s₂, s₁, setFile]
      · rw [Function.update_of_ne h2]
        exact slot_congr (by simp [s₂, s₁, setFile, h1, h2]) fun j _ => rfl
  have hr : (s.rename src dst).2 = s₂.collectUnreferencedInodes.bump := by
    simp only [rename, hp, if_neg hne]
    rfl
  rw [hr]
  exact ⟨bump_tidy (collect_tidy h2),
    (disk_bump (collect_tidy h2)).trans ((disk_collect h2).trans hd)⟩

theorem create_refines {s : SimFs} (hs : s.Tidy) {p : Path} (hp : (s.files p).liveInode = none) :
    (s.create p).2.Tidy ∧
      (s.create p).2.disk = Function.update s.disk p ((s.disk p).link .empty) := by
  let s₁ : SimFs := { s with nextInode := s.nextInode + 1, ids := s.ids ++ [s.nextInode] }
  let s₂ := s₁.setInode s.nextInode .default
  let s₃ := s₂.setFile p { s.files p with liveInode := some s.nextInode }
  have hnew : ∀ q i, s.Bound q i → i ≠ s.nextInode := fun q i h => Nat.ne_of_lt (hs.lt q i h)
  have hlive : ∀ q, (s₃.files q).liveInode =
      if q = p then some s.nextInode else (s.files q).liveInode := by
    intro q
    by_cases h : q = p <;> simp [s₃, s₂, s₁, setFile, setInode, h]
  have hdur : ∀ q, (s₃.files q).durableInode = (s.files q).durableInode := by
    intro q
    by_cases h : q = p <;> simp [s₃, s₂, s₁, setFile, setInode, h]
  have hown : ∀ q i, s₃.Bound q i → s.Bound q i ∨ q = p ∧ i = s.nextInode := by
    intro q i h
    rw [Bound, hlive, hdur] at h
    by_cases hq : q = p
    · rw [if_pos hq] at h
      rcases h with h | h
      · exact Or.inr ⟨hq, (Option.some.inj h).symm⟩
      · exact Or.inl (Or.inr h)
    · rw [if_neg hq] at h
      exact Or.inl h
  have ht : s₃.Tidy := by
    constructor
    · intro q i h
      rcases hown q i h with hb | ⟨rfl, _⟩
      · exact mem_insertPath.mpr (Or.inr (hs.mem q i hb))
      · exact mem_insertPath.mpr (Or.inl rfl)
    · exact nodup_insertPath hs.nodup
    · intro q i h
      show i < s.nextInode + 1
      rcases hown q i h with hb | ⟨_, rfl⟩
      · exact Nat.lt_succ_of_lt (hs.lt q i hb)
      · exact Nat.lt_succ_self _
    · intro q r i h h'
      rcases hown q i h with hb | ⟨rfl, rfl⟩
      · rcases hown r i h' with hb' | ⟨_, rfl⟩
        · exact hs.inj q r i hb hb'
        · exact absurd rfl (hnew q _ hb)
      · rcases hown r _ h' with hb' | ⟨rfl, _⟩
        · exact absurd rfl (hnew r _ hb')
        · rfl
    · intro i
      by_cases h : i = s.nextInode
      · simp [s₃, s₂, s₁, setFile, setInode, h, InodeState.default]
      · simpa [s₃, s₂, s₁, setFile, setInode, h] using hs.durable_prefix i
    · exact hs.unarmed
  have hd : s₃.disk = Function.update s.disk p ((s.disk p).link .empty) := by
    funext q
    by_cases hq : q = p
    · subst hq
      rw [Function.update_self]
      show slot _ _ = (slot _ _).link _
      unfold slot
      rw [hlive, hdur, if_pos rfl, hp]
      cases hd : (s.files q).durableInode with
      | none => simp [s₃, s₂, setFile, setInode, Slot.link, InodeState.blob, InodeState.default,
          Blob.empty]
      | some j =>
        have hj : j ≠ s.nextInode := hnew q j (Or.inr hd)
        have hj' : ¬ s.nextInode = j := fun e => hj e.symm
        simp [s₃, s₂, s₁, setFile, setInode, Slot.link, InodeState.blob, InodeState.default,
          Blob.empty, hj, hj']
    · rw [Function.update_of_ne hq]
      refine slot_congr (by simp [s₃, s₂, s₁, setFile, setInode, hq]) fun i h => ?_
      simp [s₃, s₂, s₁, setFile, setInode, hnew q i h]
  have hc : (s.create p).2 = s₃.bump := by
    simp only [create, hp]
    rfl
  rw [hc]
  exact ⟨bump_tidy ht, (disk_bump ht).trans hd⟩

theorem lists_refines {s : SimFs} (hs : s.Tidy) (d : Dir) :
    s.disk.Lists d (s.paths.filter fun p => (s.files p).liveInode.isSome && p.dir == d) := by
  refine ⟨hs.nodup.filter _, fun p => ?_⟩
  have hl : ((s.disk p).live).isSome = (s.files p).liveInode.isSome := by
    rw [disk, live_slot, Option.isSome_map]
  rw [List.mem_filter, hl]
  simp only [Bool.and_eq_true, beq_iff_eq]
  constructor
  · exact fun h => ⟨h.2.2, h.2.1⟩
  · rintro ⟨h1, h2⟩
    obtain ⟨i, hi⟩ := Option.isSome_iff_exists.mp h2
    exact ⟨hs.mem p i (Or.inl hi), h2, h1⟩

/-! ### The simulation -/

/-- An operation the abstract storage gives a meaning does the same on both
levels. -/
theorem run_refines {s : SimFs} (hs : s.Tidy) (o : StorageOp)
    (hsafe : (Disk.sem Faults.none).safe o s.disk) :
    (run o s).2.Tidy ∧ Disk.Does o s.disk (run o s).1 (run o s).2.disk := by
  have hlive : ∀ p, (s.disk p).live = (s.files p).liveInode.map fun i => (s.inodes i).blob :=
    fun p => live_slot s p
  have hcontent : ∀ i, (s.inodes i).blob.content = (s.inodes i).live :=
    fun i => content_blob (hs.durable_prefix i)
  cases o with
  | create p =>
    cases h : (s.files p).liveInode with
    | none =>
      refine ⟨(create_refines hs h).1, ?_⟩
      simp only [Disk.Does, Disk.run, hlive, h, Option.map_none, run, (create_refines hs h).2]
      simp [create, h]
    | some i =>
      simp only [Disk.Does, Disk.run, hlive, h, Option.map_some, run, create]
      exact ⟨hs, trivial⟩
  | «open» p =>
    cases h : (s.files p).liveInode with
    | none =>
      simp only [Disk.Does, Disk.run, hlive, h, Option.map_none, run, SimFs.open]
      exact ⟨hs, trivial⟩
    | some i =>
      simp only [Disk.Does, Disk.run, hlive, h, Option.map_some, run, SimFs.open]
      exact ⟨hs, trivial⟩
  | append p data =>
    cases h : (s.files p).liveInode with
    | none =>
      simp only [Disk.Does, Disk.run, hlive, h, Option.map_none, run, append]
      exact ⟨hs, trivial⟩
    | some i =>
      refine ⟨(append_refines hs h data).1, ?_⟩
      simp only [Disk.Does, Disk.run, hlive, h, Option.map_some, run,
        (append_refines hs h data).2, hcontent]
      simp [append, h]
  | writeAt p offset data => exact hsafe.elim
  | readAt p offset len =>
    cases h : (s.files p).liveInode with
    | none =>
      simp only [Disk.Does, Disk.run, hlive, h, Option.map_none, run, readAt]
      exact ⟨hs, trivial⟩
    | some i =>
      simp only [Disk.Does, Disk.run, hlive, h, Option.map_some, run, readAt, hcontent]
      by_cases ho : offset > (s.inodes i).live.length
      · simp only [if_pos ho]
        exact ⟨hs, trivial⟩
      · simp only [if_neg ho]
        exact ⟨hs, trivial⟩
  | syncFile p =>
    cases h : (s.files p).liveInode with
    | none =>
      simp only [Disk.Does, Disk.run, hlive, h, Option.map_none, run, syncFile]
      exact ⟨hs, trivial⟩
    | some i =>
      refine ⟨(syncFile_refines hs h).1, ?_⟩
      simp only [Disk.Does, Disk.run, hlive, h, Option.map_some, run, (syncFile_refines hs h).2]
      simp [syncFile, h]
  | syncDir d => exact ⟨(syncDir_refines hs d).1, congrArg _ (syncDir_refines hs d).2⟩
  | rename src dst =>
    cases h : (s.files src).liveInode with
    | none =>
      simp only [Disk.Does, Disk.run, hlive, h, Option.map_none, run, rename]
      exact ⟨hs, trivial⟩
    | some i =>
      obtain ⟨h1, h2⟩ := rename_refines hs h hsafe.1 hsafe.2
      refine ⟨h1, ?_⟩
      simp only [Disk.Does, Disk.run, hlive, h, Option.map_some, run, h2]
      simp [rename, h]
  | delete p =>
    cases h : (s.files p).liveInode with
    | none =>
      simp only [Disk.Does, Disk.run, hlive, h, Option.map_none, run, delete]
      exact ⟨hs, trivial⟩
    | some i =>
      refine ⟨(delete_refines hs h).1, ?_⟩
      simp only [Disk.Does, Disk.run, hlive, h, Option.map_some, run, (delete_refines hs h).2]
      simp [delete, h]
  | list d => exact ⟨hs, ⟨_, rfl, lists_refines hs d⟩, rfl⟩
  | len p =>
    cases h : (s.files p).liveInode with
    | none =>
      simp only [Disk.Does, Disk.run, hlive, h, Option.map_none, run, len]
      exact ⟨hs, trivial⟩
    | some i =>
      simp only [Disk.Does, Disk.run, hlive, h, Option.map_some, run, len, hcontent]
      exact ⟨hs, trivial⟩

/-- **The abstract storage simulates the simulator**, injected errors included. -/
theorem sem_simulates (e : Faults) : Simulates (sem e) (Disk.sem e) Tidy disk where
  safe _ _ _ _ := trivial
  step o s r s' hs hsafe hstep := by
    have hdoes : (r, s') = run o s → s'.Tidy ∧ Disk.Does o s.disk r s'.disk := by
      intro h
      obtain ⟨rfl, rfl⟩ := Prod.mk.inj h
      exact run_refines hs o hsafe
    cases o with
    | append p data =>
      rcases hstep with h | ⟨hf, hr, rfl⟩ | ⟨hr, n, hn, hf, rfl⟩
      · obtain ⟨h1, h2⟩ := hdoes h
        exact ⟨h1, Or.inl h2⟩
      · exact ⟨hs, Or.inr (Or.inl ⟨hf, hr, rfl⟩)⟩
      · obtain ⟨h1, h2⟩ := run_refines hs (.append p (data.take n)) hsafe
        exact ⟨h1, Or.inr (Or.inr ⟨hr, n, hn, hf, congrArg Prod.snd h2⟩)⟩
    | _ =>
      rcases hstep with h | ⟨hf, hr, rfl⟩
      · obtain ⟨h1, h2⟩ := hdoes h
        exact ⟨h1, Or.inl h2⟩
      · exact ⟨hs, Or.inr ⟨hf, hr, rfl⟩⟩

/-! ### Power loss -/

/-- The torn inode has an unsynced tail. -/
theorem tearTarget_tail {s : SimFs} {b : Nat × Nat} (h : s.tearTarget = some b) :
    (s.inodes b.2).durable.length < (s.inodes b.2).live.length := by
  let good : Option (Nat × Nat) → Prop := fun o =>
    ∀ b, o = some b → (s.inodes b.2).durable.length < (s.inodes b.2).live.length
  have hgood : good s.tearTarget := by
    refine List.foldlRecOn (motive := good) (List.range s.nextInode) _ ?_ ?_
    · intro b hb
      cases hb
    · intro best hbest i _
      cases (s.inodes i).lastAppendSeq with
      | none => exact hbest
      | some seq =>
        simp only
        split
        · rename_i hc
          cases best with
          | none =>
            rintro _ ⟨⟩
            exact hc.1
          | some c =>
            simp only
            split
            · rintro _ ⟨⟩
              exact hc.1
            · exact hbest
        · exact hbest
  exact hgood b h

theorem torn_tear {n : InodeState} (rng : Nat → Nat)
    (ht : n.durable.length < n.live.length) : Torn n.blob (tear rng n).2.1 := by
  have hlen : n.blob.tail.length = n.live.length - n.durable.length := List.length_drop
  simp only [tear, genRange]
  split
  · have h := Torn.cut (b := n.blob) 0 (Nat.zero_le _)
    rwa [List.take_zero, List.append_nil] at h
  · refine Torn.cut (b := n.blob) _ ?_
    have hk := Nat.mod_lt (rng (0 + 1)) (Nat.add_one_pos (n.live.length - n.durable.length))
    omega
  · refine Torn.flip (b := n.blob) _ ?_
    rw [hlen]
    exact Nat.mod_lt _ (by omega)

/-- The inode table a power loss leaves, before it is collected. -/
def tornInode (s : SimFs) (i : Nat) : Bytes :=
  match s.tearTarget with
  | none => (s.inodes i).durable
  | some b => if i = b.2 then (tear s.rng (s.inodes b.2)).2.1 else (s.inodes i).durable

theorem torn_tornInode (s : SimFs) (i : Nat) :
    Torn (s.inodes i).blob (s.tornInode i) := by
  have hkeep : Torn (s.inodes i).blob (s.inodes i).durable := by
    have h := Torn.cut (b := (s.inodes i).blob) 0 (Nat.zero_le _)
    rwa [List.take_zero, List.append_nil] at h
  unfold tornInode
  cases h : s.tearTarget with
  | none => exact hkeep
  | some b =>
    by_cases hb : i = b.2
    · subst hb
      simp only [if_true]
      exact torn_tear s.rng (tearTarget_tail h)
    · simp only [if_neg hb]
      exact hkeep

theorem crash_files (s : SimFs) (p : Path) :
    s.crash.files p = ⟨(s.files p).durableInode, (s.files p).durableInode⟩ := by
  unfold crash
  cases s.tearTarget <;> rfl

theorem crash_paths (s : SimFs) :
    s.crash.paths = s.paths.filter fun p => (s.files p).durableInode.isSome := by
  unfold crash
  cases s.tearTarget <;> rfl

theorem crash_nextInode (s : SimFs) : s.crash.nextInode = s.nextInode := by
  unfold crash
  cases s.tearTarget <;> rfl

theorem crash_nextAppendSeq (s : SimFs) : s.crash.nextAppendSeq = s.nextAppendSeq := by
  unfold crash
  cases s.tearTarget <;> rfl

theorem crash_unarmed (s : SimFs) : s.crash.crashAfter = none := by
  unfold crash
  cases s.tearTarget <;> rfl

theorem referenced_revert {s : SimFs} {i : Nat} :
    s.revert.referenced i = true ↔ ∃ p ∈ s.paths, (s.files p).durableInode = some i := by
  unfold referenced
  rw [List.any_eq_true]
  simp only [revert, List.mem_filter, Bool.or_self, beq_iff_eq]
  constructor
  · rintro ⟨p, ⟨hp, _⟩, h⟩
    exact ⟨p, hp, h⟩
  · rintro ⟨p, hp, h⟩
    exact ⟨p, ⟨hp, by rw [h]; rfl⟩, h⟩

theorem crash_ids (s : SimFs) : s.crash.ids = s.ids.filter s.revert.referenced := by
  unfold crash
  cases s.tearTarget <;> rfl

theorem crash_inodes_eq (s : SimFs) (i : Nat) : s.crash.inodes i =
    if s.revert.referenced i then ⟨s.tornInode i, s.tornInode i, none⟩ else .default := by
  unfold crash tornInode
  cases s.tearTarget with
  | none => rfl
  | some b =>
    show (if SimFs.referenced (SimFs.revert (s.setInode b.2 _)) i then
      (SimFs.revert (s.setInode b.2 _)).inodes i else _) = if s.revert.referenced i then _ else _
    by_cases hb : i = b.2
    · simp only [revert, setInode, if_pos hb]
      rfl
    · simp only [revert, setInode, if_neg hb]
      rfl

theorem crash_inodes {s : SimFs} {p : Path} {i : Nat} (hs : s.Tidy)
    (h : (s.files p).durableInode = some i) :
    s.crash.inodes i = ⟨s.tornInode i, s.tornInode i, none⟩ := by
  rw [crash_inodes_eq, if_pos (referenced_revert.mpr ⟨p, hs.mem p i (Or.inr h), h⟩)]

theorem crash_inodes_synced (s : SimFs) (i : Nat) :
    (s.crash.inodes i).live = (s.crash.inodes i).durable := by
  rw [crash_inodes_eq]
  split <;> rfl

theorem crash_tidy {s : SimFs} (hs : s.Tidy) : s.crash.Tidy := by
  have hsub : ∀ p i, s.crash.Bound p i → (s.files p).durableInode = some i := by
    intro p i h
    rw [Bound, crash_files] at h
    exact h.elim id id
  constructor
  · intro p i h
    rw [crash_paths]
    exact List.mem_filter.mpr ⟨hs.mem p i (Or.inr (hsub p i h)), by rw [hsub p i h]; rfl⟩
  · rw [crash_paths]
    exact hs.nodup.filter _
  · intro p i h
    rw [crash_nextInode]
    exact hs.lt p i (Or.inr (hsub p i h))
  · exact fun p q i h h' => hs.inj p q i (Or.inr (hsub p i h)) (Or.inr (hsub q i h'))
  · intro i
    exact crash_inodes_synced s i ▸ List.prefix_refl _
  · exact crash_unarmed s

theorem slot_crash {s : SimFs} (hs : s.Tidy) (p : Path) :
    s.crash.disk p = match (s.files p).durableInode with
      | none => .absent
      | some i => .kept ⟨s.tornInode i, []⟩ := by
  show slot _ _ = _
  unfold slot
  rw [crash_files]
  cases h : (s.files p).durableInode with
  | none => rfl
  | some i => simp [crash_inodes hs h, InodeState.blob]

/-- **A power loss refines the abstract one.** -/
theorem crash_refines {s : SimFs} (hs : s.Tidy) : s.disk.Crash s.crash.disk := by
  intro p
  rw [slot_crash hs, disk, durable_slot]
  cases (s.files p).durableInode with
  | none => rfl
  | some i => exact ⟨_, torn_tornInode s i, rfl⟩

end SimFs

end AccretionDb
