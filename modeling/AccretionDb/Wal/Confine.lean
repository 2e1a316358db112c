import AccretionDb.Lib.Keep
import AccretionDb.Wal.Spec

/-! # What the log leaves alone

Whatever is in the segments, and whichever calls fail, `append` and `reset` call the
storage only on files of the log, and the writer stays at a segment.  So a condition on
what lies beside the log survives them.
-/

namespace AccretionDb.Wal

open CrashLogic

/-- The call is on a file of the log, or changes no file. -/
def OnOwn (dir : Dir) : StorageOp → Prop
  | .create p | .append p _ | .syncFile p | .delete p => Own dir p
  | .syncDir dir' => dir' = dir
  | .writeAt .. | .rename .. => False
  | .open _ | .readAt .. | .list _ | .len _ => True

variable {dir : Dir} {I : Disk → Prop} {e : Faults} {strict : Prop}

theorem Beside.run (hI : Beside dir I) {o : StorageOp} (ho : OnOwn dir o) {d : Disk} (hi : I d) :
    I (Disk.run o d).2 := by
  cases o with
  | writeAt p offset data => exact ho.elim
  | rename src dst => exact ho.elim
  | list dir' => exact hi
  | syncDir dir' =>
    obtain rfl : dir' = dir := ho
    exact hI.commit d hi
  | create p =>
    rw [Disk.run]
    cases (d p).live with
    | some b => exact hi
    | none => exact hI.update d p _ ho hi
  | append p data =>
    rw [Disk.run]
    cases (d p).live with
    | some b => exact hI.update d p _ ho hi
    | none => exact hi
  | syncFile p =>
    rw [Disk.run]
    cases (d p).live with
    | some b => exact hI.update d p _ ho hi
    | none => exact hi
  | delete p =>
    rw [Disk.run]
    cases (d p).live with
    | some b => exact hI.update d p _ ho hi
    | none => exact hi
  | «open» p =>
    rw [Disk.run]
    cases (d p).live <;> exact hi
  | len p =>
    rw [Disk.run]
    cases (d p).live <;> exact hi
  | readAt p offset len =>
    rw [Disk.run]
    cases (d p).live with
    | some b =>
      dsimp only
      split <;> exact hi
    | none => exact hi

theorem Beside.step (hI : Beside dir I) {o : StorageOp} (ho : OnOwn dir o) {d d' : Disk}
    {r : o.Resp} (hi : I d) (h : (Disk.sem e).step o d r d') : I d' := by
  have hdoes : ∀ {o : StorageOp} {r : o.Resp}, OnOwn dir o → Disk.Does o d r d' → I d' := by
    intro o r ho hd
    cases o with
    | list dir' => exact hd.2 ▸ hi
    | _ =>
      have hrun : d' = (Disk.run _ d).2 := congrArg Prod.snd hd
      rw [hrun]
      exact hI.run ho hi
  cases o with
  | append p data =>
    rcases h with h | ⟨_, _, rfl⟩ | ⟨_, n, _, _, rfl⟩
    · exact hdoes ho h
    · exact hi
    · exact hI.run (o := .append p (data.take n)) ho hi
  | _ =>
    rcases h with h | ⟨_, _, rfl⟩
    · exact hdoes ho h
    · exact hi

theorem OnOwn.safe {o : StorageOp} (ho : OnOwn dir o) (d : Disk) : (Disk.sem e).safe o d := by
  cases o with
  | writeAt p offset data => exact ho
  | rename src dst => exact ho.elim
  | _ => exact trivial

/-- A call on a file of the log leaves what lies beside it alone. -/
theorem keeps_own {M : Type} {K : M → Prop} (hI : Beside dir I) {o : StorageOp}
    (ho : OnOwn dir o) :
    Keeps (Disk.sem e) strict (fun σ : Disk × M => I σ.1 ∧ K σ.2) (storage o) := by
  rintro ⟨d, m⟩ ⟨hi, hk⟩
  refine wpE_device trivial (ho.safe d) (fun a d' h => ⟨trivial, ?_, hk⟩)
    fun err d' h => ⟨trivial, ?_, hk⟩
  · exact hI.step ho hi h
  · exact hI.step ho hi h

/-- The handle is on a segment. -/
def Sits (dir : Dir) (s : Segment) : Prop := ∃ id, s.path = segmentPath dir id

theorem own_segment (dir : Dir) (id : Nat) : Own dir (segmentPath dir id) := ⟨id, Or.inl rfl⟩

theorem Sits.own {s : Segment} (h : Sits dir s) : Own dir s.path := by
  obtain ⟨id, hp⟩ := h
  rw [hp]
  exact own_segment dir id

theorem keeps_segment_append (hI : Beside dir I) (bytes : Bytes) :
    Keeps (Disk.sem e) strict (fun τ => I τ.1 ∧ Sits dir τ.2) (Segment.append bytes) := by
  refine .get_bind (Sits dir) (fun _ h => h.2) fun s hs => ?_
  refine .bind (keeps_own hI hs.own) fun _ => ?_
  exact .modify fun _ h => ⟨h.1, h.2⟩

theorem keeps_segment_sync (hI : Beside dir I) :
    Keeps (Disk.sem e) strict (fun τ => I τ.1 ∧ Sits dir τ.2) Segment.sync :=
  .get_bind (Sits dir) (fun _ h => h.2) fun _ hs => keeps_own hI hs.own

/-- A new segment to write. -/
theorem create_sits {K : Writer → Prop} (hI : Beside dir I) (id : Nat) {σ : Disk × Writer}
    (h : I σ.1 ∧ K σ.2) :
    wpE (Disk.sem e) strict True (fun _ => True) (Segment.create dir id)
      (fun s τ => Sits dir s ∧ I τ.1 ∧ K τ.2) (fun _ τ => I τ.1 ∧ K τ.2) σ :=
  wpE_bind.mpr (wpE_post (keeps_own hI (o := .create _) (own_segment dir id) σ h)
    (fun _ _ _ hk => wpE_pure.mpr ⟨trivial, ⟨id, rfl⟩, hk⟩) fun _ _ _ hk => hk)

theorem keeps_wrappingSucc {M ε : Type} {J : Disk × M → Prop} (n : Nat) :
    Keeps (Disk.sem e) strict J (wrappingSucc n : Io M ε Nat) :=
  .bind (.fits _) fun _ => .pure _

theorem keeps_appendAll (hI : Beside dir I) (batch : List (Nat × Bytes)) :
    Keeps (Disk.sem e) strict (fun τ => I τ.1 ∧ Sits dir τ.2.active) (appendAll batch) := by
  induction batch with
  | nil => exact .pure ()
  | cons x batch ih =>
    exact .bind (.zoom Writer.segment fun _ => keeps_segment_append hI x.2) fun _ => ih

/-- What has a name with a sign may go as well. -/
def Unsigned (dir : Dir) (I : Disk → Prop) : Prop :=
  ∀ d id s, I d → I (Function.update d (signedPath dir id) s)

theorem keeps_delete {M : Type} {K : M → Prop} (hI : Beside dir I) (hu : Unsigned dir I)
    (n : SegName) :
    Keeps (Disk.sem e) strict (fun σ : Disk × M => I σ.1 ∧ K σ.2)
      (storage (.delete (n.path dir))) := by
  obtain ⟨id, _ | _⟩ := n
  · exact keeps_own hI (o := .delete _) (own_segment dir id)
  · rintro ⟨d, m⟩ ⟨hi, hk⟩
    exact wpE_delete_any trivial (fun _ => ⟨trivial, hu d id _ hi, hk⟩) fun _ _ => ⟨hi, hk⟩

theorem keeps_deleteAll {M : Type} {K : M → Prop} (hI : Beside dir I) (hu : Unsigned dir I) :
    ∀ xs : List (Nat × Path), (∀ x ∈ xs, ∃ n : SegName, x.2 = n.path dir) →
      Keeps (Disk.sem e) strict (fun σ : Disk × M => I σ.1 ∧ K σ.2) (deleteAll xs) := by
  intro xs
  induction xs with
  | nil => exact fun _ => .pure ()
  | cons x xs ih =>
    intro h
    obtain ⟨n, hn⟩ := h x List.mem_cons_self
    refine .bind ?_ fun _ => ih fun y hy => h y (List.mem_cons_of_mem x hy)
    rw [hn]
    exact keeps_delete hI hu n

/-- What is listed is a segment. -/
theorem list_names {M : Type} {J : Disk × M → Prop} {σ : Disk × M} (hJ : J σ) :
    wpE (Disk.sem e) strict True (fun _ => True) (listSegments dir)
      (fun xs τ => (∀ x ∈ xs, ∃ n : SegName, x.2 = n.path dir) ∧ J τ) (fun _ => J) σ := by
  refine wpE_bind.mpr (wpE_list trivial (fun ps hps => wpE_pure.mpr ⟨trivial, ?_, hJ⟩)
    fun _ _ => hJ)
  intro x hx
  rw [(List.perm_insertionSort _ _).mem_iff, List.mem_filterMap] at hx
  obtain ⟨p, hp, hx⟩ := hx
  obtain ⟨id, hid, rfl⟩ := Option.map_eq_some_iff.mp hx
  obtain ⟨n, -, -, hn⟩ := SegName.parse_iff.mp hid
  obtain rfl : p.dir = dir := ((hps.2 _).mp hp).1
  exact ⟨n, hn⟩

theorem keeps_syncDir (hI : Beside dir I) :
    Keeps (Disk.sem e) strict (fun τ : Disk × Writer => I τ.1 ∧ Sits dir τ.2.active)
      (storage (.syncDir dir)) :=
  keeps_own (K := fun w : Writer => Sits dir w.active) hI (o := .syncDir dir) rfl

section Programs

variable [Hashing] {cfg : Config}

omit [Hashing] in
theorem keeps_maybeRotate (hI : Beside cfg.dir I) :
    Keeps (Disk.sem e) strict (fun τ => I τ.1 ∧ Sits cfg.dir τ.2.active) (maybeRotate cfg) := by
  refine .get_bind (fun _ => True) (fun _ _ => trivial) fun w _ => ?_
  split
  · exact .pure ()
  · refine .bind (keeps_wrappingSucc _) fun nextId => ?_
    refine .bind (.zoom Writer.segment fun _ => keeps_segment_sync hI) fun _ => ?_
    refine .bind_of (fun _ h => create_sits (K := fun w => Sits cfg.dir w.active) hI nextId h)
      fun seg hseg => ?_
    refine .bind (keeps_syncDir hI) fun _ => ?_
    exact .modify fun _ h => ⟨h.1, hseg⟩

omit [Hashing] in
theorem keeps_writeBatch (hI : Beside cfg.dir I) (batch : List (Nat × Bytes)) :
    Keeps (Disk.sem e) strict (fun τ => I τ.1 ∧ Sits cfg.dir τ.2.active) (writeBatch cfg batch) :=
  .bind (keeps_appendAll hI batch) fun _ =>
    .bind (.zoom Writer.segment fun _ => keeps_segment_sync hI) fun _ => keeps_maybeRotate hI

/-- **Appending** leaves alone what lies beside the log. -/
theorem keeps_append (hI : Beside cfg.dir I) (p : Bytes) :
    Keeps (Disk.sem e) strict (fun σ => I σ.1 ∧ Sits cfg.dir σ.2.writer.active) (append cfg p) := by
  cases hmode : cfg.durability with
  | always =>
    simp only [append, hmode]
    refine .zoom State.writerPart fun _ => ?_
    refine .bind (.zoom Writer.segment fun _ => keeps_segment_append hI _) fun _ => ?_
    exact .bind (.zoom Writer.segment fun _ => keeps_segment_sync hI) fun _ => keeps_maybeRotate hI
  | osBuffered =>
    simp only [append, hmode]
    refine .zoom State.writerPart fun _ => ?_
    exact .bind (.zoom Writer.segment fun _ => keeps_segment_append hI _) fun _ =>
      keeps_maybeRotate hI
  | groupCommit =>
    simp only [append, hmode]
    refine .modifyGet_bind (fun _ h => ⟨h.1, h.2⟩) fun st => ?_
    refine .modifyGet_bind (fun _ h => ⟨h.1, h.2⟩) fun st' => ?_
    split
    · exact .pure ()
    · split
      · exact .hang
      · refine .bind (.attempt (.zoom State.writerPart fun _ => keeps_writeBatch hI _)) fun io => ?_
        exact .bind (.modify fun _ h => ⟨h.1, h.2⟩) fun _ => .ofExcept io

omit [Hashing] in
/-- **Resetting** leaves alone what lies beside the log. -/
theorem keeps_reset (hI : Beside cfg.dir I) (hu : Unsigned cfg.dir I) :
    Keeps (Disk.sem e) strict (fun σ => I σ.1 ∧ Sits cfg.dir σ.2.writer.active) (reset cfg) := by
  refine .zoom State.writerPart fun _ => ?_
  show Keeps _ _ (fun τ : Disk × Writer => I τ.1 ∧ Sits cfg.dir τ.2.active) _
  refine .bind_of (fun σ h => list_names h) fun existing hnames => ?_
  refine .bind (keeps_wrappingSucc _) fun nextId => ?_
  refine .bind_of (fun _ h => create_sits (K := fun w => Sits cfg.dir w.active) hI nextId h)
    fun fresh hfresh => ?_
  refine .bind (keeps_syncDir hI) fun _ => ?_
  refine .bind (keeps_deleteAll (K := fun w : Writer => Sits cfg.dir w.active) hI hu existing
    hnames) fun _ => ?_
  refine .bind (keeps_syncDir hI) fun _ => ?_
  exact .modify fun _ h => ⟨h.1, hfresh⟩

end Programs

end AccretionDb.Wal
