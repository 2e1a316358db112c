import AccretionDb.Lib.Ascending
import AccretionDb.Storage.Refine

/-! # Files as a running process sees them

While nothing crashes, the files directly inside one directory are a map from names to
bytes, and every method of `Storage` has one thing to do on it (`Files.Does`).  The
simulator does it on every call (`SimFs.run_does`).
-/

namespace AccretionDb

open CrashLogic

/-- A name that one component of a path can have. -/
def ProperName (name : Bytes) : Prop :=
  name ≠ [] ∧ 0 ∉ name ∧ 47 ∉ name ∧ name ≠ [46] ∧ name ≠ [46, 46]

/-- A file directly inside the directory; its name is spelled out. -/
def Path.Inside (dir : Dir) (p : Path) : Prop := ∃ name, p = ⟨dir, .other name⟩ ∧ ProperName name

/-- The call is about the directory or files directly inside it. -/
def StorageOp.Within (dir : Dir) : StorageOp → Prop
  | create p | StorageOp.open p | append p _ | writeAt p _ _ | readAt p _ _ | syncFile p
  | delete p | len p => p.Inside dir
  | rename src dst => src.Inside dir ∧ dst.Inside dir
  | syncDir d | list d => d = dir

/-! ### Paths in order -/

theorem Path.le_iff {p q : Path} :
    p.le q = true ↔ p.dir < q.dir ∨ p.dir = q.dir ∧ p.name.render ≤ q.name.render :=
  decide_eq_true_iff

protected theorem Path.le_total (p q : Path) : p.le q = true ∨ q.le p = true := by
  rw [Path.le_iff, Path.le_iff]
  rcases lt_trichotomy p.dir q.dir with h | h | h
  · exact .inl (.inl h)
  · rcases le_total p.name.render q.name.render with h' | h'
    · exact .inl (.inr ⟨h, h'⟩)
    · exact .inr (.inr ⟨h.symm, h'⟩)
  · exact .inr (.inl h)

protected theorem Path.le_trans {p q r : Path} (hpq : p.le q = true) (hqr : q.le r = true) :
    p.le r = true := by
  rw [Path.le_iff] at hpq hqr ⊢
  rcases hpq with h | ⟨h, h'⟩
  · rcases hqr with g | ⟨g, -⟩
    · exact .inl (lt_trans h g)
    · exact .inl (g ▸ h)
  · rcases hqr with g | ⟨g, g'⟩
    · exact .inl (h ▸ g)
    · exact .inr ⟨h.trans g, le_trans h' g'⟩

/-- Names of one directory that are spelled out are ordered by their spelling. -/
theorem Path.le_other {dir : Dir} {a b : Bytes} :
    Path.le ⟨dir, .other a⟩ ⟨dir, .other b⟩ = true ↔ a ≤ b := by
  rw [Path.le_iff]
  exact ⟨fun h => h.elim (fun h => absurd h (lt_irrefl _)) And.right, fun h => .inr ⟨rfl, h⟩⟩

theorem placePath_sorted (p : Path) : ∀ {ps : List Path}, ps.Pairwise (·.le · = true) →
    (placePath p ps).Pairwise (·.le · = true) := by
  intro ps
  induction ps with
  | nil => exact fun _ => List.pairwise_singleton _ p
  | cons q ps ih =>
    intro h
    obtain ⟨hq, hps⟩ := List.pairwise_cons.mp h
    rw [placePath]
    split
    · rename_i hpq
      refine List.pairwise_cons.mpr ⟨fun r hr => ?_, h⟩
      rcases List.mem_cons.mp hr with rfl | hr
      · exact hpq
      · exact Path.le_trans hpq (hq r hr)
    · rename_i hpq
      refine List.pairwise_cons.mpr ⟨fun r hr => ?_, ih hps⟩
      rcases List.mem_cons.mp ((SimFs.placePath_perm p ps).mem_iff.mp hr) with rfl | hr
      · exact (Path.le_total _ _).resolve_right hpq
      · exact hq r hr

/-! ### The map and its calls -/

abbrev Files := Bytes → Option Bytes

namespace Files

def empty : Files := fun _ => none

/-- Every method but `list` is a function of the map. -/
def run : (o : StorageOp) → Files → o.Resp × Files
  | .create p, f =>
    match f p.name.render with
    | some _ => (.error (.alreadyExists p), f)
    | none => (.ok (), Function.update f p.name.render (some []))
  | .open p, f =>
    match f p.name.render with
    | some _ => (.ok (), f)
    | none => (.error (.notFound p), f)
  | .append p data, f =>
    match f p.name.render with
    | some b => (.ok b.length, Function.update f p.name.render (some (b ++ data)))
    | none => (.error (.notFound p), f)
  | .writeAt p offset data, f =>
    match f p.name.render with
    | some b =>
      if b.length < offset ∨ b.length < offset + data.length then
        (.error (.outOfBounds p offset b.length), f)
      else
        (.ok (), Function.update f p.name.render
          (some (b.take offset ++ data ++ b.drop (offset + data.length))))
    | none => (.error (.notFound p), f)
  | .readAt p offset len, f =>
    match f p.name.render with
    | some b =>
      if b.length < offset then (.error (.outOfBounds p offset b.length), f)
      else (.ok (slice b offset len), f)
    | none => (.error (.notFound p), f)
  | .syncFile p, f =>
    match f p.name.render with
    | some _ => (.ok (), f)
    | none => (.error (.notFound p), f)
  | .syncDir _, f => (.ok (), f)
  | .rename src dst, f =>
    match f src.name.render with
    | some b =>
      (.ok (), if src = dst then f
        else Function.update (Function.update f dst.name.render (some b)) src.name.render none)
    | none => (.error (.notFound src), f)
  | .delete p, f =>
    match f p.name.render with
    | some _ => (.ok (), Function.update f p.name.render none)
    | none => (.error (.notFound p), f)
  | .list _, f => (.ok [], f)
  | .len p, f =>
    match f p.name.render with
    | some b => (.ok b.length, f)
    | none => (.error (.notFound p), f)

/-- A listing names every file of the directory once, in order. -/
structure Lists (f : Files) (dir : Dir) (ps : List Path) : Prop where
  sorted : ps.Pairwise (·.le · = true)
  nodup : ps.Nodup
  mem : ∀ p, p ∈ ps ↔ ∃ name, p = ⟨dir, .other name⟩ ∧ (f name).isSome

theorem Lists.unique {f : Files} {dir : Dir} {ps qs : List Path} (hp : f.Lists dir ps)
    (hq : f.Lists dir qs) : ps = qs := by
  have hperm : ps.Perm qs := (List.perm_ext_iff_of_nodup hp.nodup hq.nodup).mpr
    fun p => (hp.mem p).trans (hq.mem p).symm
  refine List.Perm.eq_of_pairwise ?_ hp.sorted hq.sorted hperm
  intro a b ha hb hab hba
  obtain ⟨x, rfl, -⟩ := (hp.mem a).mp ha
  obtain ⟨y, rfl, -⟩ := (hq.mem b).mp hb
  rw [le_antisymm (Path.le_other.mp hab) (Path.le_other.mp hba)]

/-- What a method does. -/
def Does : (o : StorageOp) → Files → o.Resp → Files → Prop
  | .list dir, f, r, f' => (∃ ps, r = .ok ps ∧ f.Lists dir ps) ∧ f' = f
  | o, f, r, f' => (r, f') = run o f

/-- **There is one thing to do.** -/
theorem Does.unique {o : StorageOp} {f f₁ f₂ : Files} {r₁ r₂ : o.Resp} (h₁ : Does o f r₁ f₁)
    (h₂ : Does o f r₂ f₂) : r₁ = r₂ := by
  cases o with
  | list dir =>
    obtain ⟨⟨ps, rfl, hp⟩, -⟩ := h₁
    obtain ⟨⟨qs, rfl, hq⟩, -⟩ := h₂
    rw [hp.unique hq]
  | _ => exact congrArg Prod.fst (Eq.trans h₁ (Eq.symm h₂))

theorem Does.effect {o : StorageOp} {f f' : Files} {r : o.Resp} (h : Does o f r f') :
    f' = (run o f).2 := by
  cases o with
  | list dir => exact h.2
  | _ => exact congrArg Prod.snd h

theorem Does.result {o : StorageOp} {f f' : Files} {r : o.Resp} (h : Does o f r f')
    (ho : ∀ dir, o ≠ .list dir) : r = (run o f).1 := by
  cases o with
  | list dir => exact absurd rfl (ho dir)
  | _ => exact congrArg Prod.fst h

end Files

/-! ### The simulator while nothing crashes -/

namespace SimFs

/-- What the process sees of the directory. -/
def view (dir : Dir) (s : SimFs) : Files := fun name =>
  (s.files ⟨dir, .other name⟩).liveInode.map fun i => (s.inodes i).live

/-- All paths are inside the directory and in order, every path is bound to an inode of
its own, and no crash is armed. -/
structure Running (dir : Dir) (s : SimFs) : Prop where
  inside : ∀ p ∈ s.paths, ∃ name, p = ⟨dir, .other name⟩
  sorted : s.paths.Pairwise (·.le · = true)
  nodup : s.paths.Nodup
  mem : ∀ p i, (s.files p).liveInode = some i → p ∈ s.paths
  lt : ∀ p i, (s.files p).liveInode = some i → i < s.nextInode
  inj : ∀ p q i, (s.files p).liveInode = some i → (s.files q).liveInode = some i → p = q
  unarmed : s.crashAfter = none

theorem new_running (dir : Dir) (rng : Nat → Nat) : (SimFs.new rng).Running dir where
  inside p hp := by cases hp
  sorted := .nil
  nodup := .nil
  mem p i h := by cases h
  lt p i h := by cases h
  inj p q i h := by cases h
  unarmed := rfl

theorem view_some {dir : Dir} {s : SimFs} {name : Bytes} {i : Nat}
    (h : (s.files ⟨dir, .other name⟩).liveInode = some i) :
    s.view dir name = some (s.inodes i).live := by
  rw [view, h, Option.map_some]

theorem view_none {dir : Dir} {s : SimFs} {name : Bytes}
    (h : (s.files ⟨dir, .other name⟩).liveInode = none) : s.view dir name = none := by
  rw [view, h, Option.map_none]

section Steps

variable {dir : Dir} {s : SimFs}

theorem Running.bump_eq (hs : s.Running dir) : s.bump = { s with opCount := s.opCount + 1 } := by
  rw [bump]
  simp only [hs.unarmed]

theorem Running.bump (hs : s.Running dir) : s.bump.Running dir ∧ s.bump.view dir = s.view dir := by
  rw [hs.bump_eq]
  exact ⟨⟨hs.inside, hs.sorted, hs.nodup, hs.mem, hs.lt, hs.inj, hs.unarmed⟩, rfl⟩

theorem Running.collect (hs : s.Running dir) : s.collectUnreferencedInodes.Running dir ∧
    s.collectUnreferencedInodes.view dir = s.view dir := by
  refine ⟨⟨hs.inside, hs.sorted, hs.nodup, hs.mem, hs.lt, hs.inj, hs.unarmed⟩, ?_⟩
  funext name
  cases hi : (s.files ⟨dir, .other name⟩).liveInode with
  | none => rw [view_none hi, view_none (s := s.collectUnreferencedInodes) hi]
  | some i =>
    have href : s.referenced i = true := by
      rw [referenced, List.any_eq_true]
      refine ⟨_, hs.mem _ i hi, ?_⟩
      simp only [hi, BEq.rfl, Bool.true_or]
    rw [view_some hi, view_some (s := s.collectUnreferencedInodes) hi,
      collectUnreferencedInodes]
    simp only [href, if_true]

theorem Running.setInode (hs : s.Running dir) {name : Bytes} {i : Nat}
    (hi : (s.files ⟨dir, .other name⟩).liveInode = some i) (n : InodeState) :
    (s.setInode i n).Running dir ∧
      (s.setInode i n).view dir = Function.update (s.view dir) name (some n.live) := by
  refine ⟨⟨hs.inside, hs.sorted, hs.nodup, hs.mem, hs.lt, hs.inj, hs.unarmed⟩, ?_⟩
  funext m
  by_cases hm : m = name
  · rw [hm, Function.update_self, view_some (s := s.setInode i n) hi, SimFs.setInode]
    simp only [if_true]
  · rw [Function.update_of_ne hm]
    cases hj : (s.files ⟨dir, .other m⟩).liveInode with
    | none => rw [view_none hj, view_none (s := s.setInode i n) hj]
    | some j =>
      have hne : j ≠ i := by
        intro h
        have hp := hs.inj _ _ i (h ▸ hj) hi
        injection hp with _ hname
        injection hname with hname
        exact hm hname
      rw [view_some hj, view_some (s := s.setInode i n) hj, SimFs.setInode]
      simp only [hne, if_false]

/-- A path is bound to an inode that no other path is bound to, or to none. -/
theorem Running.setFile (hs : s.Running dir) (name : Bytes) {e : PathState}
    (he : ∀ i, e.liveInode = some i → i < s.nextInode ∧
      ∀ q, q ≠ ⟨dir, .other name⟩ → (s.files q).liveInode ≠ some i) :
    (s.setFile ⟨dir, .other name⟩ e).Running dir ∧
      (s.setFile ⟨dir, .other name⟩ e).view dir =
        Function.update (s.view dir) name (e.liveInode.map fun i => (s.inodes i).live) := by
  have hfiles : ∀ q, (s.setFile ⟨dir, .other name⟩ e).files q =
      if q = ⟨dir, .other name⟩ then e else s.files q := fun _ => rfl
  constructor
  · constructor
    · intro p hp
      rcases mem_insertPath.mp hp with rfl | hp
      · exact ⟨name, rfl⟩
      · exact hs.inside p hp
    · show (insertPath _ s.paths).Pairwise _
      rw [insertPath]
      split
      · exact hs.sorted
      · exact placePath_sorted _ hs.sorted
    · exact nodup_insertPath hs.nodup
    · intro p i hp
      refine mem_insertPath.mpr ?_
      rw [hfiles] at hp
      split at hp
      · rename_i h
        exact .inl h
      · exact .inr (hs.mem p i hp)
    · intro p i hp
      rw [hfiles] at hp
      split at hp
      · exact (he i hp).1
      · exact hs.lt p i hp
    · intro p q i hp hq
      rw [hfiles] at hp hq
      split at hp
      · rename_i h
        split at hq
        · rename_i h'
          rw [h, h']
        · rename_i h'
          exact absurd hq ((he i hp).2 q h')
      · rename_i h
        split at hq
        · exact absurd hp ((he i hq).2 p h)
        · exact hs.inj p q i hp hq
    · exact hs.unarmed
  · funext m
    rw [view, hfiles]
    by_cases hm : m = name
    · rw [hm, Function.update_self, if_pos rfl]
      rfl
    · rw [Function.update_of_ne hm, if_neg fun h => hm (FileName.other.inj (Path.mk.inj h).2)]
      rfl

/-- Two paths can be bound in either order, once both are there. -/
theorem setFile_comm {p q : Path} (hne : p ≠ q) (hp : p ∈ s.paths) (e e' : PathState) :
    (s.setFile q e').setFile p e = (s.setFile p e).setFile q e' := by
  have hpq : p ∈ insertPath q s.paths := mem_insertPath.mpr (.inr hp)
  have hpaths : insertPath p (insertPath q s.paths) = insertPath q (insertPath p s.paths) := by
    rw [insertPath, if_pos hpq, insertPath.eq_1 p s.paths, if_pos hp]
  simp only [SimFs.setFile, hpaths]
  congr 1
  funext r
  by_cases hr : r = p
  · rw [if_pos hr, if_neg fun h => hne (hr.symm.trans h), if_pos hr]
  · rw [if_neg hr, if_neg hr]

/-- A new inode, which no path is bound to yet. -/
theorem Running.grow (hs : s.Running dir) (ids : List Nat) (n : InodeState) :
    ({ s with nextInode := s.nextInode + 1, ids }.setInode s.nextInode n).Running dir ∧
      ({ s with nextInode := s.nextInode + 1, ids }.setInode s.nextInode n).view dir =
        s.view dir := by
  refine ⟨⟨hs.inside, hs.sorted, hs.nodup, hs.mem, fun p i h => Nat.lt_succ_of_lt (hs.lt p i h),
    hs.inj, hs.unarmed⟩, ?_⟩
  funext m
  cases hj : (s.files ⟨dir, .other m⟩).liveInode with
  | none =>
    rw [view_none hj]
    exact view_none (s := SimFs.setInode _ _ n) hj
  | some j =>
    have hne : j ≠ s.nextInode := Nat.ne_of_lt (hs.lt _ j hj)
    rw [view_some hj]
    refine (view_some (s := SimFs.setInode _ _ n) hj).trans ?_
    rw [SimFs.setInode]
    simp only [hne, if_false]

/-- The bytes of a file change, and the call is counted. -/
theorem Running.edit (hs : s.Running dir) {name : Bytes} {i : Nat}
    (hi : (s.files ⟨dir, .other name⟩).liveInode = some i) (k : Nat) (n : InodeState) :
    ({ s with nextAppendSeq := k }.setInode i n).bump.Running dir ∧
      ({ s with nextAppendSeq := k }.setInode i n).bump.view dir =
        Function.update (s.view dir) name (some n.live) := by
  have hs' : { s with nextAppendSeq := k }.Running dir :=
    ⟨hs.inside, hs.sorted, hs.nodup, hs.mem, hs.lt, hs.inj, hs.unarmed⟩
  obtain ⟨hset, hview⟩ := hs'.setInode hi n
  exact ⟨hset.bump.1, hset.bump.2.trans hview⟩

/-- A path loses its file. -/
theorem Running.unbind (hs : s.Running dir) (name : Bytes) (d : Option Nat) :
    (s.setFile ⟨dir, .other name⟩ ⟨none, d⟩).Running dir ∧
      (s.setFile ⟨dir, .other name⟩ ⟨none, d⟩).view dir =
        Function.update (s.view dir) name none :=
  hs.setFile name fun _ h => by cases h

/-- The entries of the directory become durable. -/
theorem Running.commit (hs : s.Running dir) :
    (s.syncDir dir).2.Running dir ∧ (s.syncDir dir).2.view dir = s.view dir := by
  let files : Path → PathState := fun p =>
    if p.dir = dir then ⟨(s.files p).liveInode, (s.files p).liveInode⟩ else s.files p
  let paths := s.paths.filter fun p =>
    (files p).liveInode.isSome || (files p).durableInode.isSome
  have hlive : ∀ p, (files p).liveInode = (s.files p).liveInode := by
    intro p
    by_cases hp : p.dir = dir
    · simp only [files, if_pos hp]
    · simp only [files, if_neg hp]
  have hs' : { s with files, paths }.Running dir := by
    constructor
    · exact fun p hp => hs.inside p ((List.mem_filter.mp hp).1)
    · exact hs.sorted.filter _
    · exact hs.nodup.filter _
    · intro p i hi
      refine List.mem_filter.mpr ⟨hs.mem p i ((hlive p).symm.trans hi), ?_⟩
      rw [show (files p).liveInode = some i from hi, Option.isSome_some, Bool.true_or]
    · exact fun p i hi => hs.lt p i ((hlive p).symm.trans hi)
    · exact fun p q i hp hq => hs.inj p q i ((hlive p).symm.trans hp) ((hlive q).symm.trans hq)
    · exact hs.unarmed
  have hview : { s with files, paths }.view dir = s.view dir := by
    funext name
    rw [view, view]
    exact congrArg (Option.map _) (hlive _)
  exact ⟨hs'.collect.1.bump.1, hs'.collect.1.bump.2.trans (hs'.collect.2.trans hview)⟩

/-- The file of one path goes to another. -/
theorem Running.move (hs : s.Running dir) {a b : Bytes} {i : Nat} (hne : a ≠ b)
    (hi : (s.files ⟨dir, .other a⟩).liveInode = some i) (d d' : Option Nat) :
    ((s.setFile ⟨dir, .other b⟩ ⟨some i, d⟩).setFile ⟨dir, .other a⟩ ⟨none, d'⟩).Running dir ∧
      ((s.setFile ⟨dir, .other b⟩ ⟨some i, d⟩).setFile ⟨dir, .other a⟩ ⟨none, d'⟩).view dir =
        Function.update (Function.update (s.view dir) b (some (s.inodes i).live)) a none := by
  have hpath : (⟨dir, .other a⟩ : Path) ≠ ⟨dir, .other b⟩ := fun h =>
    hne (FileName.other.inj (Path.mk.inj h).2)
  obtain ⟨hrun, hview⟩ := hs.unbind a d'
  -- unbound first, the inode is free for the other path
  rw [setFile_comm hpath (hs.mem _ i hi)]
  have hfree : ∀ j, (⟨some i, d⟩ : PathState).liveInode = some j →
      j < (s.setFile ⟨dir, .other a⟩ ⟨none, d'⟩).nextInode ∧ ∀ q, q ≠ ⟨dir, .other b⟩ →
        ((s.setFile ⟨dir, .other a⟩ ⟨none, d'⟩).files q).liveInode ≠ some j := by
    rintro j ⟨rfl⟩
    refine ⟨hs.lt _ i hi, fun q _ hq => ?_⟩
    by_cases hqa : q = ⟨dir, .other a⟩
    · rw [hqa, SimFs.setFile] at hq
      simp only [if_true] at hq
      cases hq
    · rw [SimFs.setFile] at hq
      simp only [hqa, if_false] at hq
      exact hqa (hs.inj q _ i hq hi)
  obtain ⟨hrun', hview'⟩ := hrun.setFile b hfree
  refine ⟨hrun', hview'.trans ?_⟩
  rw [hview]
  exact Function.update_comm hne _ _ _

theorem Running.lists (hs : s.Running dir) : (s.view dir).Lists dir
    (s.paths.filter fun p => (s.files p).liveInode.isSome && p.dir == dir) where
  sorted := hs.sorted.filter _
  nodup := hs.nodup.filter _
  mem p := by
    rw [List.mem_filter]
    constructor
    · rintro ⟨hp, hlive⟩
      obtain ⟨name, rfl⟩ := hs.inside p hp
      refine ⟨name, rfl, ?_⟩
      rw [view, Option.isSome_map]
      exact (Bool.and_eq_true_iff.mp hlive).1
    · rintro ⟨name, rfl, hsome⟩
      rw [view, Option.isSome_map] at hsome
      obtain ⟨i, hi⟩ := Option.isSome_iff_exists.mp hsome
      refine ⟨hs.mem _ i hi, ?_⟩
      rw [hsome, BEq.rfl, Bool.and_self]

/-- **The simulator does what there is to do.** -/
theorem run_does (hs : s.Running dir) {o : StorageOp} (ho : o.Within dir) :
    (run o s).2.Running dir ∧ Files.Does o (s.view dir) (run o s).1 ((run o s).2.view dir) := by
  cases o with
  | create p =>
    obtain ⟨name, rfl, -⟩ := ho
    cases hi : (s.files ⟨dir, .other name⟩).liveInode with
    | some i =>
      simp only [run, create, Files.Does, Files.run, hi, view_some hi, FileName.render]
      exact ⟨hs, trivial⟩
    | none =>
      obtain ⟨hgrow, hview⟩ := hs.grow (s.ids ++ [s.nextInode]) .default
      have hfree : ∀ j, some s.nextInode = some j → j < s.nextInode + 1 ∧
          ∀ q, q ≠ ⟨dir, .other name⟩ → (s.files q).liveInode ≠ some j := by
        rintro j ⟨rfl⟩
        exact ⟨Nat.lt_succ_self _, fun q _ hq => Nat.lt_irrefl _ (hs.lt q _ hq)⟩
      obtain ⟨hset, hview'⟩ := hgrow.setFile name
        (e := ⟨some s.nextInode, (s.files ⟨dir, .other name⟩).durableInode⟩) hfree
      simp only [run, create, Files.Does, Files.run, hi, view_none hi, FileName.render]
      refine ⟨hset.bump.1, ?_⟩
      rw [hset.bump.2, hview', hview, Option.map_some, SimFs.setInode]
      simp only [if_true, InodeState.default]
  | «open» p =>
    obtain ⟨name, rfl, -⟩ := ho
    cases hi : (s.files ⟨dir, .other name⟩).liveInode with
    | some i =>
      simp only [run, SimFs.open, Files.Does, Files.run, hi, view_some hi, FileName.render]
      exact ⟨hs, trivial⟩
    | none =>
      simp only [run, SimFs.open, Files.Does, Files.run, hi, view_none hi, FileName.render]
      exact ⟨hs, trivial⟩
  | append p data =>
    obtain ⟨name, rfl, -⟩ := ho
    cases hi : (s.files ⟨dir, .other name⟩).liveInode with
    | some i =>
      obtain ⟨hrun, hview⟩ := hs.edit hi (s.nextAppendSeq + 1)
        { s.inodes i with
          live := (s.inodes i).live ++ data
          lastAppendSeq := some s.nextAppendSeq }
      simp only [run, SimFs.append, Files.Does, Files.run, hi, view_some hi, FileName.render]
      exact ⟨hrun, congrArg _ hview⟩
    | none =>
      simp only [run, SimFs.append, Files.Does, Files.run, hi, view_none hi, FileName.render]
      exact ⟨hs, trivial⟩
  | writeAt p offset data =>
    obtain ⟨name, rfl, -⟩ := ho
    cases hi : (s.files ⟨dir, .other name⟩).liveInode with
    | some i =>
      simp only [run, SimFs.writeAt, Files.Does, Files.run, hi, view_some hi, FileName.render,
        gt_iff_lt]
      split
      · exact ⟨hs, rfl⟩
      · obtain ⟨hrun, hview⟩ := hs.edit hi s.nextAppendSeq
          { s.inodes i with
            live := (s.inodes i).live.take offset ++ data ++
              (s.inodes i).live.drop (offset + data.length) }
        exact ⟨hrun, congrArg _ hview⟩
    | none =>
      simp only [run, SimFs.writeAt, Files.Does, Files.run, hi, view_none hi, FileName.render]
      exact ⟨hs, trivial⟩
  | readAt p offset len =>
    obtain ⟨name, rfl, -⟩ := ho
    cases hi : (s.files ⟨dir, .other name⟩).liveInode with
    | some i =>
      simp only [run, SimFs.readAt, Files.Does, Files.run, hi, view_some hi, FileName.render,
        gt_iff_lt]
      split
      · exact ⟨hs, rfl⟩
      · exact ⟨hs, rfl⟩
    | none =>
      simp only [run, SimFs.readAt, Files.Does, Files.run, hi, view_none hi, FileName.render]
      exact ⟨hs, trivial⟩
  | syncFile p =>
    obtain ⟨name, rfl, -⟩ := ho
    cases hi : (s.files ⟨dir, .other name⟩).liveInode with
    | some i =>
      obtain ⟨hrun, hview⟩ := hs.edit hi s.nextAppendSeq
        { s.inodes i with
          durable := (s.inodes i).live
          lastAppendSeq := none }
      simp only [run, SimFs.syncFile, Files.Does, Files.run, hi, view_some hi, FileName.render]
      refine ⟨hrun, congrArg _ (hview.trans ?_)⟩
      rw [← view_some hi, Function.update_eq_self]
    | none =>
      simp only [run, SimFs.syncFile, Files.Does, Files.run, hi, view_none hi, FileName.render]
      exact ⟨hs, trivial⟩
  | syncDir d =>
    subst ho
    exact ⟨hs.commit.1, congrArg _ hs.commit.2⟩
  | rename src dst =>
    obtain ⟨⟨a, rfl, -⟩, b, rfl, -⟩ := ho
    cases hi : (s.files ⟨dir, .other a⟩).liveInode with
    | some i =>
      simp only [run, SimFs.rename, Files.Does, Files.run, hi, view_some hi, FileName.render]
      split
      · exact ⟨hs.collect.1.bump.1, congrArg _ (hs.collect.1.bump.2.trans hs.collect.2)⟩
      · rename_i hne
        have hab : a ≠ b := fun h => hne (by rw [h])
        obtain ⟨hrun, hview⟩ := hs.move hab hi (s.files ⟨dir, .other b⟩).durableInode
          ((s.setFile ⟨dir, .other b⟩
            ⟨some i, (s.files ⟨dir, .other b⟩).durableInode⟩).files ⟨dir, .other a⟩).durableInode
        exact ⟨hrun.collect.1.bump.1,
          congrArg _ (hrun.collect.1.bump.2.trans (hrun.collect.2.trans hview))⟩
    | none =>
      simp only [run, SimFs.rename, Files.Does, Files.run, hi, view_none hi, FileName.render]
      exact ⟨hs, trivial⟩
  | delete p =>
    obtain ⟨name, rfl, -⟩ := ho
    cases hi : (s.files ⟨dir, .other name⟩).liveInode with
    | some i =>
      obtain ⟨hrun, hview⟩ := hs.unbind name (s.files ⟨dir, .other name⟩).durableInode
      simp only [run, SimFs.delete, Files.Does, Files.run, hi, view_some hi, FileName.render]
      exact ⟨hrun.collect.1.bump.1,
        congrArg _ (hrun.collect.1.bump.2.trans (hrun.collect.2.trans hview))⟩
    | none =>
      simp only [run, SimFs.delete, Files.Does, Files.run, hi, view_none hi, FileName.render]
      exact ⟨hs, trivial⟩
  | list d =>
    subst ho
    exact ⟨hs, ⟨_, rfl, hs.lists⟩, rfl⟩
  | len p =>
    obtain ⟨name, rfl, -⟩ := ho
    cases hi : (s.files ⟨dir, .other name⟩).liveInode with
    | some i =>
      simp only [run, SimFs.len, Files.Does, Files.run, hi, view_some hi, FileName.render]
      exact ⟨hs, trivial⟩
    | none =>
      simp only [run, SimFs.len, Files.Does, Files.run, hi, view_none hi, FileName.render]
      exact ⟨hs, trivial⟩

end Steps

end SimFs

end AccretionDb
