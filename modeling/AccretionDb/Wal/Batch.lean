import AccretionDb.Wal.Spec

/-! # What a batch does to the files

The leader's work, call by call: a batch of frames is appended to the active
segment, synced, and the next segment is started when this one is full.  `Stage`
lists the disks on the way, on a storage where any call may fail and any append
may write a part of its frame.  Nothing is assumed of the segment but that the
process sees it.
-/

namespace AccretionDb.Wal

open CrashLogic

/-- Change the bytes of a segment. -/
def put (dir : Dir) (d : Disk) (a : Nat) (f : Blob → Blob) : Disk :=
  Function.update d (segmentPath dir a) ((d (segmentPath dir a)).edit f)

/-- The segment that comes behind. -/
def succId (a : Nat) : Nat := (a + 1) % 2 ^ 64

theorem succId_eq {a : Nat} (h : a + 1 < 2 ^ 64) : succId a = a + 1 := Nat.mod_eq_of_lt h

theorem succId_ne (a : Nat) : succId a ≠ a := by
  unfold succId
  omega

/-- The segment with the batch in it, and all of it synced. -/
def sealed (dir : Dir) (d : Disk) (a : Nat) (fs : List Bytes) : Disk :=
  put dir d a fun b => (b.append fs.flatten).sync

/-- The next segment, behind the batch. -/
def rolled (dir : Dir) (d : Disk) (a : Nat) (fs : List Bytes) : Disk :=
  (start dir (sealed dir d a fs) (succId a)).commit dir

/-- The disks on the way from `d` while the frames `fs` are written to segment `a`;
the number is the segment the writer aims at.  If it is `strict`, no id overflows. -/
inductive Stage (strict : Prop) (dir : Dir) (e : Faults) (d : Disk) (a : Nat) (fs : List Bytes) :
    Nat → Disk → Prop
  | wrote {done rest : List Bytes} (h : done ++ rest = fs) :
      Stage strict dir e d a fs a (put dir d a (·.append done.flatten))
  | broke {done rest : List Bytes} {f : Bytes} {n : Nat} (h : done ++ f :: rest = fs)
      (hn : n ≤ f.length) (hs : e.short (segmentPath dir a) f n) :
      Stage strict dir e d a fs a (put dir d a (·.append (done.flatten ++ f.take n)))
  | synced : Stage strict dir e d a fs a (sealed dir d a fs)
  | started (h : (d (segmentPath dir (succId a))).live = none) (hword : strict → a + 1 < 2 ^ 64) :
      Stage strict dir e d a fs a (start dir (sealed dir d a fs) (succId a))
  | listed (h : (d (segmentPath dir (succId a))).live = none) (hword : strict → a + 1 < 2 ^ 64) :
      Stage strict dir e d a fs a (rolled dir d a fs)
  | rolled (h : (d (segmentPath dir (succId a))).live = none) (hword : strict → a + 1 < 2 ^ 64) :
      Stage strict dir e d a fs (succId a) (rolled dir d a fs)

/-- The disks a batch may end with when every call of it succeeds. -/
inductive Batched (strict : Prop) (dir : Dir) (d : Disk) (a : Nat) (fs : List Bytes) :
    Nat → Disk → Prop
  | stayed : Batched strict dir d a fs a (sealed dir d a fs)
  | rolled (h : (d (segmentPath dir (succId a))).live = none) (hword : strict → a + 1 < 2 ^ 64) :
      Batched strict dir d a fs (succId a) (rolled dir d a fs)

/-- What it takes for a batch to fail. -/
def Trouble (strict : Prop) (dir : Dir) (e : Faults) (d : Disk) (a : Nat) : Prop :=
  (∃ o, e.fail o) ∨ (∃ p data n, e.short p data n) ∨
    (strict → a + 1 < 2 ^ 64) ∧ (d (segmentPath dir (succId a))).live.isSome

/-! ### The slots of a stage -/

theorem put_put (dir : Dir) (d : Disk) (a : Nat) (f g : Blob → Blob) :
    put dir (put dir d a f) a g = put dir d a fun b => g (f b) := by
  rw [put, put, Function.update_self, Function.update_idem, Slot.edit_edit]
  rfl

theorem put_self (dir : Dir) (d : Disk) (a : Nat) : put dir d a (·.append []) = d := by
  have h : ∀ s : Slot, s.edit (·.append []) = s := by
    intro s
    cases s <;> simp only [Slot.edit, Blob.append, List.append_nil]
  rw [put, h, Function.update_eq_self]

theorem put_of_ne {dir : Dir} {a : Nat} {n : SegName} (h : n ≠ .plain a) (d : Disk)
    (f : Blob → Blob) : put dir d a f (n.path dir) = d (n.path dir) :=
  Function.update_of_ne (SegName.path_ne h) ..

theorem put_at (dir : Dir) (d : Disk) (a : Nat) (f : Blob → Blob) :
    put dir d a f (segmentPath dir a) = (d (segmentPath dir a)).edit f := Function.update_self ..

/-! ### The batch -/

section Specs

variable {cfg : Config} {e : Faults} {strict H : Prop} {d : Disk} {a : Nat}
variable {C : Disk × Writer → Prop} {R : StorageError → Disk × Writer → Prop}

/-- Appending the rest of a batch. -/
theorem wpE_appendAll_stage {fs : List Bytes} {Q : Unit → Disk × Writer → Prop}
    (hlive : (d (segmentPath cfg.dir a)).live.isSome)
    (hC : ∀ d' w', Stage strict cfg.dir e d a fs a d' → Writes cfg.dir a w' → C (d', w'))
    (herr : Trouble strict cfg.dir e d a → ∀ err d' w', Stage strict cfg.dir e d a fs a d' → Writes cfg.dir a w' →
      R err (d', w'))
    (hok : ∀ w', Writes cfg.dir a w' →
      Q () (put cfg.dir d a (·.append fs.flatten), w')) :
    ∀ (batch : List (Nat × Bytes)) (done : List Bytes) (w : Writer),
      done ++ batch.map Prod.snd = fs → Writes cfg.dir a w →
      wpE (Disk.sem e) strict H C (appendAll batch) Q R
        (put cfg.dir d a (·.append done.flatten), w) := by
  obtain ⟨b, hb⟩ := Option.isSome_iff_exists.mp hlive
  intro batch
  induction batch with
  | nil =>
    intro done w hdone hw
    rw [List.map_nil, List.append_nil] at hdone
    subst hdone
    exact wpE_pure.mpr ⟨hC _ _ (.wrote (List.append_nil _)) hw, hok w hw⟩
  | cons x batch ih =>
    obtain ⟨seq, frame⟩ := x
    intro done w hdone hw
    rw [List.map_cons] at hdone
    have hdone' : (done ++ [frame]) ++ batch.map Prod.snd = fs := by
      rw [List.append_assoc]
      exact hdone
    have hflat : (done ++ [frame]).flatten = done.flatten ++ frame := by
      rw [List.flatten_append, List.flatten_singleton]
    let d₁ := put cfg.dir d a (·.append done.flatten)
    have hl₁ : (d₁ (segmentPath cfg.dir a)).live = some (b.append done.flatten) := by
      show (put cfg.dir d a _ _).live = _
      rw [put_at, Slot.live_edit, hb]
      rfl
    have hput : ∀ y, Function.update d₁ (segmentPath cfg.dir a)
        ((d₁ (segmentPath cfg.dir a)).edit (·.append y)) =
        put cfg.dir d a (·.append (done.flatten ++ y)) := by
      intro y
      show put cfg.dir d₁ a _ = _
      rw [put_put]
      simp only [Blob.append_append]
    have hc₁ := hC d₁ w (.wrote hdone) hw
    refine wpE_bind.mpr (wpE_zoom Writer.segment (wpE_bind.mpr (wpE_get hc₁ ?_)))
    show wpE _ _ _ _ (storage (.append w.active.path frame) >>= _) _ _ _
    rw [hw.path]
    have hwrote : Stage strict cfg.dir e d a fs a (put cfg.dir d a (·.append (done ++ [frame]).flatten)) :=
      .wrote hdone'
    rw [hflat] at hwrote
    refine wpE_bind.mpr (wpE_append hc₁ hl₁ ?_ (fun hf msg => ?_) fun n hn hs msg => ?_)
    · rw [hput]
      refine ⟨hC _ _ hwrote hw, wpE_modify (hC _ _ hwrote hw) (hC _ _ hwrote ⟨hw.id, hw.path⟩) ?_⟩
      have := ih (done ++ [frame]) ⟨{ w.active with
        writeOffset := w.active.writeOffset + frame.length }⟩ hdone' ⟨hw.id, hw.path⟩
      rw [hflat] at this
      exact this
    · exact herr (Or.inl ⟨_, hf⟩) _ _ _ (.wrote hdone) hw
    · rw [hput]
      have hbroke : Stage strict cfg.dir e d a fs a _ := .broke hdone hn hs
      exact ⟨hC _ _ hbroke hw, herr (Or.inr (Or.inl ⟨_, _, _, hs⟩)) _ _ _ hbroke hw⟩

/-- **Writing a batch**: the disks on the way, and how it ends. -/
theorem wpE_writeBatch_stage {fs : List Bytes} {batch : List (Nat × Bytes)} {w : Writer}
    {Q : Unit → Disk × Writer → Prop} (hb : batch.map Prod.snd = fs)
    (hlive : (d (segmentPath cfg.dir a)).live.isSome) (hw : Writes cfg.dir a w)
    (hC : ∀ a' d' w', Stage strict cfg.dir e d a fs a' d' → Writes cfg.dir a' w' → C (d', w'))
    (herr : Trouble strict cfg.dir e d a → ∀ err d' w', Stage strict cfg.dir e d a fs a d' → Writes cfg.dir a w' →
      R err (d', w'))
    (hok : ∀ a' d' w', Batched strict cfg.dir d a fs a' d' → Writes cfg.dir a' w' → Q () (d', w')) :
    wpE (Disk.sem e) strict H C (writeBatch cfg batch) Q R (d, w) := by
  obtain ⟨b, hbl⟩ := Option.isSome_iff_exists.mp hlive
  have hstart : d = put cfg.dir d a (·.append ([] : List Bytes).flatten) := (put_self ..).symm
  let d₂ := sealed cfg.dir d a fs
  have hl₂ : (d₂ (segmentPath cfg.dir a)).live = some (b.append fs.flatten).sync := by
    show (put cfg.dir d a _ _).live = _
    rw [put_at, Slot.live_edit, hbl]
    rfl
  have hsync : ∀ (w : Writer), Writes cfg.dir a w → ∀ (d₁ : Disk) {b : Blob},
      (d₁ (segmentPath cfg.dir a)).live = some b → put cfg.dir d₁ a Blob.sync = d₂ →
      Stage strict cfg.dir e d a fs a d₁ → ∀ {Q' : Unit → Disk × Writer → Prop}, Q' () (d₂, w) →
      wpE (Disk.sem e) strict H C (Act.zoom Writer.segment Segment.sync) Q' R (d₁, w) := by
    intro w hw d₁ b hl₁ hput hst Q' hq
    have hc₁ := hC _ d₁ w hst hw
    refine wpE_zoom Writer.segment (wpE_bind.mpr (wpE_get hc₁ ?_))
    show wpE _ _ _ _ (storage (.syncFile w.active.path)) _ _ _
    rw [hw.path]
    refine wpE_syncFile hc₁ hl₁ ?_ fun hf msg => herr (Or.inl ⟨_, hf⟩) _ _ _ hst hw
    have hd : Function.update d₁ (segmentPath cfg.dir a) ((d₁ (segmentPath cfg.dir a)).edit Blob.sync)
        = d₂ := hput
    rw [hd]
    exact ⟨hC _ _ _ .synced hw, hq⟩
  refine wpE_bind.mpr ?_
  rw [hstart]
  refine wpE_appendAll_stage hlive (fun d' w' => hC a d' w') herr (fun w₁ hw₁ => ?_) batch [] w
    (by rw [List.nil_append]; exact hb) hw
  refine wpE_bind.mpr (hsync w₁ hw₁ _ (b := b.append fs.flatten) ?_ ?_
    (.wrote (List.append_nil fs)) ?_)
  · rw [put_at, Slot.live_edit, hbl]
    rfl
  · rw [put_put]
    rfl
  -- the batch is durable; what is left is to roll
  have hc₂ := hC _ d₂ w₁ .synced hw₁
  refine wpE_bind.mpr (wpE_get hc₂ ?_)
  by_cases hlt : w₁.active.writeOffset < cfg.segmentSize
  · rw [if_pos hlt]
    exact wpE_pure.mpr ⟨hc₂, hok _ _ _ .stayed hw₁⟩
  · rw [if_neg hlt]
    refine wpE_bind.mpr (wpE_wrappingSucc hc₂ fun hword => ?_)
    rw [hw₁.id] at hword ⊢
    change wpE _ _ _ _ (_ >>= fun _ => Segment.create cfg.dir (succId a) >>= _) _ _ _
    refine wpE_bind.mpr (hsync w₁ hw₁ d₂ hl₂ ?_ .synced ?_)
    · show put cfg.dir (put cfg.dir d a _) a _ = put cfg.dir d a _
      rw [put_put]
      simp only [Blob.sync_sync]
    · have hslot : d₂ (segmentPath cfg.dir (succId a)) = d (segmentPath cfg.dir (succId a)) :=
        put_of_ne (n := .plain (succId a)) (SegName.plain_ne (succId_ne a)) ..
      by_cases hfree : (d (segmentPath cfg.dir (succId a))).live = none
      · have hc₃ := hC _ _ w₁ (.started hfree hword) hw₁
        have hc₄ := hC _ _ w₁ (.listed hfree hword) hw₁
        have hc₅ := hC _ _ ⟨⟨succId a, segmentPath cfg.dir (succId a), 0⟩⟩ (.rolled hfree hword) ⟨rfl, rfl⟩
        refine wpE_bind.mpr (wpE_bind.mpr (wpE_create hc₂ (by rw [hslot]; exact hfree) ?_
          fun hf msg => herr (Or.inl ⟨_, hf⟩) _ _ _ .synced hw₁))
        refine ⟨hc₃, wpE_pure.mpr ⟨hc₃, wpE_bind.mpr (wpE_syncDir hc₃ ⟨hc₄, ?_⟩
          fun hf msg => herr (Or.inl ⟨_, hf⟩) _ _ _ (.started hfree hword) hw₁)⟩⟩
        exact wpE_modify hc₄ hc₅ (hok _ _ _ (.rolled hfree hword) ⟨rfl, rfl⟩)
      · have hsome := Option.isSome_iff_ne_none.mpr hfree
        have htrouble : Trouble strict cfg.dir e d a := Or.inr (Or.inr ⟨hword, hsome⟩)
        exact wpE_bind.mpr (wpE_bind.mpr (wpE_create_exists hc₂ (by rw [hslot]; exact hsome)
          (herr htrouble _ _ _ .synced hw₁) fun _ _ => herr htrouble _ _ _ .synced hw₁))

end Specs

/-! ### After the batch -/

/-- What lies beside the log is left alone. -/
theorem Batched.beside {dir : Dir} {d d' : Disk} {a a' : Nat} {fs : List Bytes} {I : Disk → Prop}
    (hb : Batched strict dir d a fs a' d') (hI : Beside dir I) (h : I d) : I d' := by
  cases hb with
  | stayed => exact hI.segment _ _ h
  | rolled hnone _ => exact hI.commit _ (hI.segment _ _ (hI.segment _ _ h))

end AccretionDb.Wal
