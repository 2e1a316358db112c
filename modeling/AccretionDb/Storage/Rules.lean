import AccretionDb.Storage.Disk

/-! # Preconditions of the storage calls

One rule for each method of `Storage` on the abstract storage: where the call
meets what it expects it does its work or, if the faults allow it, returns an
injected error and leaves the disk alone.
-/

namespace AccretionDb

open CrashLogic

variable {M ε : Type} {e : Faults} {strict H : Prop} {C : Disk × M → Prop} {d : Disk} {m : M}

theorem wpE_create {p : Path} {Q : Unit → Disk × M → Prop} {R : StorageError → Disk × M → Prop}
    (hC : C (d, m)) (hlive : (d p).live = none)
    (hok : C (Function.update d p ((d p).link .empty), m) ∧
      Q () (Function.update d p ((d p).link .empty), m))
    (herr : e.fail (.create p) → ∀ msg, R (.io p msg) (d, m)) :
    wpE (Disk.sem e) strict H C (storage (.create p)) Q R (d, m) := by
  refine wpE_device hC trivial (fun a d' h => ?_) (fun err d' h => ?_)
  · rcases h with h | ⟨_, ⟨msg, h⟩, _⟩
    · simp only [Disk.Does, Disk.run, hlive, Prod.mk.injEq] at h
      obtain ⟨_, rfl⟩ := h
      exact hok
    · cases h
  · rcases h with h | ⟨hf, ⟨msg, h⟩, rfl⟩
    · simp only [Disk.Does, Disk.run, hlive, Prod.mk.injEq, reduceCtorEq, false_and] at h
    · cases h
      exact ⟨hC, herr hf msg⟩

/-- Creating a file that is there is an error. -/
theorem wpE_create_exists {p : Path} {Q : Unit → Disk × M → Prop}
    {R : StorageError → Disk × M → Prop} (hC : C (d, m)) (hlive : (d p).live.isSome)
    (herr : R (.alreadyExists p) (d, m))
    (hfail : e.fail (.create p) → ∀ msg, R (.io p msg) (d, m)) :
    wpE (Disk.sem e) strict H C (storage (.create p)) Q R (d, m) := by
  obtain ⟨b, hb⟩ := Option.isSome_iff_exists.mp hlive
  refine wpE_device hC trivial (fun a d' h => ?_) (fun err d' h => ?_)
  · rcases h with h | ⟨_, ⟨msg, h⟩, _⟩
    · simp only [Disk.Does, Disk.run, hb, Prod.mk.injEq, reduceCtorEq, false_and] at h
    · cases h
  · rcases h with h | ⟨hf, ⟨msg, h⟩, rfl⟩
    · simp only [Disk.Does, Disk.run, hb, Prod.mk.injEq, Except.error.injEq] at h
      obtain ⟨rfl, rfl⟩ := h
      exact ⟨hC, herr⟩
    · cases h
      exact ⟨hC, hfail hf msg⟩

theorem wpE_open {p : Path} {Q : Unit → Disk × M → Prop} {R : StorageError → Disk × M → Prop}
    (hC : C (d, m)) (hok : (d p).live.isSome → Q () (d, m))
    (hmiss : (d p).live = none → R (.notFound p) (d, m))
    (herr : e.fail (.open p) → ∀ msg, R (.io p msg) (d, m)) :
    wpE (Disk.sem e) strict H C (storage (.open p)) Q R (d, m) := by
  refine wpE_device hC trivial (fun a d' h => ?_) (fun err d' h => ?_)
  · rcases h with h | ⟨_, ⟨msg, h⟩, _⟩
    · simp only [Disk.Does, Disk.run] at h
      cases hl : (d p).live with
      | none => simp [hl] at h
      | some b =>
        simp only [hl, Prod.mk.injEq] at h
        obtain ⟨_, rfl⟩ := h
        exact ⟨hC, hok (by rw [hl]; rfl)⟩
    · cases h
  · rcases h with h | ⟨hf, ⟨msg, h⟩, rfl⟩
    · simp only [Disk.Does, Disk.run] at h
      cases hl : (d p).live with
      | none =>
        simp only [hl, Prod.mk.injEq, Except.error.injEq] at h
        obtain ⟨rfl, rfl⟩ := h
        exact ⟨hC, hmiss hl⟩
      | some b => simp [hl] at h
    · cases h
      exact ⟨hC, herr hf msg⟩

theorem wpE_append {p : Path} {data : Bytes} {b : Blob} {Q : Nat → Disk × M → Prop}
    {R : StorageError → Disk × M → Prop} (hC : C (d, m)) (hlive : (d p).live = some b)
    (hok : C (Function.update d p ((d p).edit (·.append data)), m) ∧
      Q b.content.length (Function.update d p ((d p).edit (·.append data)), m))
    (herr : e.fail (.append p data) → ∀ msg, R (.io p msg) (d, m))
    (hshort : ∀ n, n ≤ data.length → e.short p data n → ∀ msg,
      C (Function.update d p ((d p).edit (·.append (data.take n))), m) ∧
        R (.io p msg) (Function.update d p ((d p).edit (·.append (data.take n))), m)) :
    wpE (Disk.sem e) strict H C (storage (.append p data)) Q R (d, m) := by
  refine wpE_device hC trivial (fun a d' h => ?_) (fun err d' h => ?_)
  · rcases h with h | ⟨_, ⟨msg, h⟩, _⟩ | ⟨⟨msg, h⟩, _⟩
    · simp only [Disk.Does, Disk.run, hlive, Prod.mk.injEq, Except.ok.injEq] at h
      obtain ⟨rfl, rfl⟩ := h
      exact hok
    · cases h
    · cases h
  · rcases h with h | ⟨hf, ⟨msg, h⟩, rfl⟩ | ⟨⟨msg, h⟩, n, hn, hs, rfl⟩
    · simp only [Disk.Does, Disk.run, hlive, Prod.mk.injEq, reduceCtorEq, false_and] at h
    · cases h
      exact ⟨hC, herr hf msg⟩
    · cases h
      simp only [Disk.run, hlive]
      exact hshort n hn hs msg

theorem wpE_readAt {p : Path} {offset len : Nat} {b : Blob} {Q : Bytes → Disk × M → Prop}
    {R : StorageError → Disk × M → Prop} (hC : C (d, m)) (hlive : (d p).live = some b)
    (hoff : offset ≤ b.content.length) (hok : Q (slice b.content offset len) (d, m))
    (herr : e.fail (.readAt p offset len) → ∀ msg, R (.io p msg) (d, m)) :
    wpE (Disk.sem e) strict H C (storage (.readAt p offset len)) Q R (d, m) := by
  have hno : ¬ offset > b.content.length := by omega
  refine wpE_device hC trivial (fun a d' h => ?_) (fun err d' h => ?_)
  · rcases h with h | ⟨_, ⟨msg, h⟩, _⟩
    · simp only [Disk.Does, Disk.run, hlive, if_neg hno, Prod.mk.injEq, Except.ok.injEq] at h
      obtain ⟨rfl, rfl⟩ := h
      exact ⟨hC, hok⟩
    · cases h
  · rcases h with h | ⟨hf, ⟨msg, h⟩, rfl⟩
    · simp only [Disk.Does, Disk.run, hlive, if_neg hno, Prod.mk.injEq, reduceCtorEq,
        false_and] at h
    · cases h
      exact ⟨hC, herr hf msg⟩

theorem wpE_syncFile {p : Path} {b : Blob} {Q : Unit → Disk × M → Prop}
    {R : StorageError → Disk × M → Prop} (hC : C (d, m)) (hlive : (d p).live = some b)
    (hok : C (Function.update d p ((d p).edit Blob.sync), m) ∧
      Q () (Function.update d p ((d p).edit Blob.sync), m))
    (herr : e.fail (.syncFile p) → ∀ msg, R (.io p msg) (d, m)) :
    wpE (Disk.sem e) strict H C (storage (.syncFile p)) Q R (d, m) := by
  refine wpE_device hC trivial (fun a d' h => ?_) (fun err d' h => ?_)
  · rcases h with h | ⟨_, ⟨msg, h⟩, _⟩
    · simp only [Disk.Does, Disk.run, hlive, Prod.mk.injEq] at h
      obtain ⟨_, rfl⟩ := h
      exact hok
    · cases h
  · rcases h with h | ⟨hf, ⟨msg, h⟩, rfl⟩
    · simp only [Disk.Does, Disk.run, hlive, Prod.mk.injEq, reduceCtorEq, false_and] at h
    · cases h
      exact ⟨hC, herr hf msg⟩

theorem wpE_syncDir {dir : Dir} {Q : Unit → Disk × M → Prop}
    {R : StorageError → Disk × M → Prop} (hC : C (d, m))
    (hok : C (d.commit dir, m) ∧ Q () (d.commit dir, m))
    (herr : e.fail (.syncDir dir) → ∀ msg, R (.io ⟨dir, .other []⟩ msg) (d, m)) :
    wpE (Disk.sem e) strict H C (storage (.syncDir dir)) Q R (d, m) := by
  refine wpE_device hC trivial (fun a d' h => ?_) (fun err d' h => ?_)
  · rcases h with h | ⟨_, ⟨msg, h⟩, _⟩
    · simp only [Disk.Does, Disk.run, Prod.mk.injEq] at h
      obtain ⟨_, rfl⟩ := h
      exact hok
    · cases h
  · rcases h with h | ⟨hf, ⟨msg, h⟩, rfl⟩
    · simp only [Disk.Does, Disk.run, Prod.mk.injEq, reduceCtorEq, false_and] at h
    · cases h
      exact ⟨hC, herr hf msg⟩

/-! ### Writing a new file

While a new file is written the disk is `d.put p b`, with more and more in `b`. -/

theorem wpE_append_put {p : Path} {data : Bytes} {b : Blob} {Q : Nat → Disk × M → Prop}
    {R : StorageError → Disk × M → Prop} (hC : ∀ b, C (d.put p b, m))
    (hok : Q b.content.length (d.put p (b.append data), m))
    (herr : e.Any → ∀ err b', R err (d.put p b', m)) :
    wpE (Disk.sem e) strict H C (storage (.append p data)) Q R (d.put p b, m) := by
  refine wpE_append (hC b) (Disk.live_put d p b) ?_ (fun hf msg => ?_) fun n _ hf msg => ?_
  · rw [Disk.edit_put]
    exact ⟨hC _, hok⟩
  · exact herr (Faults.any_of_fail hf) _ b
  · rw [Disk.edit_put]
    exact ⟨hC _, herr (Faults.any_of_short hf) _ _⟩

theorem wpE_syncFile_put {p : Path} {b : Blob} {Q : Unit → Disk × M → Prop}
    {R : StorageError → Disk × M → Prop} (hC : ∀ b, C (d.put p b, m))
    (hok : Q () (d.put p b.sync, m)) (herr : e.Any → ∀ err b', R err (d.put p b', m)) :
    wpE (Disk.sem e) strict H C (storage (.syncFile p)) Q R (d.put p b, m) := by
  refine wpE_syncFile (hC b) (Disk.live_put d p b) ?_ fun hf msg => ?_
  · rw [Disk.edit_put]
    exact ⟨hC _, hok⟩
  · exact herr (Faults.any_of_fail hf) _ b

theorem wpE_rename {src dst : Path} {b : Blob} {Q : Unit → Disk × M → Prop}
    {R : StorageError → Disk × M → Prop} (hC : C (d, m)) (hlive : (d src).live = some b)
    (hne : src ≠ dst) (hlink : ¬ (d src).linked)
    (hok : C (Function.update (Function.update d dst ((d dst).link b)) src (d src).unlink, m) ∧
      Q () (Function.update (Function.update d dst ((d dst).link b)) src (d src).unlink, m))
    (herr : e.fail (.rename src dst) → ∀ msg, R (.io src msg) (d, m)) :
    wpE (Disk.sem e) strict H C (storage (.rename src dst)) Q R (d, m) := by
  refine wpE_device hC ⟨hne, hlink⟩ (fun a d' h => ?_) (fun err d' h => ?_)
  · rcases h with h | ⟨_, ⟨msg, h⟩, _⟩
    · simp only [Disk.Does, Disk.run, hlive, Prod.mk.injEq] at h
      obtain ⟨_, rfl⟩ := h
      exact hok
    · cases h
  · rcases h with h | ⟨hf, ⟨msg, h⟩, rfl⟩
    · simp only [Disk.Does, Disk.run, hlive, Prod.mk.injEq, reduceCtorEq, false_and] at h
    · cases h
      exact ⟨hC, herr hf msg⟩

theorem wpE_delete {p : Path} {Q : Unit → Disk × M → Prop}
    {R : StorageError → Disk × M → Prop} (hC : C (d, m)) (hlive : (d p).live.isSome)
    (hok : C (Function.update d p (d p).unlink, m) ∧ Q () (Function.update d p (d p).unlink, m))
    (herr : e.fail (.delete p) → ∀ msg, R (.io p msg) (d, m)) :
    wpE (Disk.sem e) strict H C (storage (.delete p)) Q R (d, m) := by
  obtain ⟨b, hb⟩ := Option.isSome_iff_exists.mp hlive
  refine wpE_device hC trivial (fun a d' h => ?_) (fun err d' h => ?_)
  · rcases h with h | ⟨_, ⟨msg, h⟩, _⟩
    · simp only [Disk.Does, Disk.run, hb, Prod.mk.injEq] at h
      obtain ⟨_, rfl⟩ := h
      exact hok
    · cases h
  · rcases h with h | ⟨hf, ⟨msg, h⟩, rfl⟩
    · simp only [Disk.Does, Disk.run, hb, Prod.mk.injEq, reduceCtorEq, false_and] at h
    · cases h
      exact ⟨hC, herr hf msg⟩

/-- Deleting what may not be there: an error leaves the disk alone. -/
theorem wpE_delete_any {p : Path} {Q : Unit → Disk × M → Prop}
    {R : StorageError → Disk × M → Prop} (hC : C (d, m))
    (hok : (d p).live.isSome → C (Function.update d p (d p).unlink, m) ∧
      Q () (Function.update d p (d p).unlink, m))
    (herr : (d p).live = none ∨ e.fail (.delete p) → ∀ err, R err (d, m)) :
    wpE (Disk.sem e) strict H C (storage (.delete p)) Q R (d, m) := by
  cases hl : (d p).live with
  | some b =>
    have hsome : (d p).live.isSome := by
      rw [hl]
      rfl
    exact wpE_delete hC hsome (hok hsome) (fun hf msg => herr (Or.inr hf) _)
  | none =>
    refine wpE_device hC trivial (fun a d' h => ?_) (fun err d' h => ?_)
    · rcases h with h | ⟨_, ⟨msg, h⟩, _⟩
      · simp only [Disk.Does, Disk.run, hl, Prod.mk.injEq, reduceCtorEq, false_and] at h
      · cases h
    · rcases h with h | ⟨hf, ⟨msg, h⟩, rfl⟩
      · simp only [Disk.Does, Disk.run, hl, Prod.mk.injEq] at h
        obtain ⟨_, rfl⟩ := h
        exact ⟨hC, herr (Or.inl hl) _⟩
      · exact ⟨hC, herr (Or.inr hf) _⟩

theorem wpE_list {dir : Dir} {Q : List Path → Disk × M → Prop}
    {R : StorageError → Disk × M → Prop} (hC : C (d, m))
    (hok : ∀ ps, d.Lists dir ps → Q ps (d, m))
    (herr : e.fail (.list dir) → ∀ msg, R (.io ⟨dir, .other []⟩ msg) (d, m)) :
    wpE (Disk.sem e) strict H C (storage (.list dir)) Q R (d, m) := by
  refine wpE_device hC trivial (fun a d' h => ?_) (fun err d' h => ?_)
  · rcases h with ⟨⟨ps, h, hl⟩, rfl⟩ | ⟨_, ⟨msg, h⟩, _⟩
    · cases h
      exact ⟨hC, hok _ hl⟩
    · cases h
  · rcases h with ⟨⟨ps, h, hl⟩, rfl⟩ | ⟨hf, ⟨msg, h⟩, rfl⟩
    · cases h
    · cases h
      exact ⟨hC, herr hf msg⟩

theorem wpE_len {p : Path} {Q : Nat → Disk × M → Prop} {R : StorageError → Disk × M → Prop}
    (hC : C (d, m)) (hok : ∀ b, (d p).live = some b → Q b.content.length (d, m))
    (hmiss : (d p).live = none → R (.notFound p) (d, m))
    (herr : e.fail (.len p) → ∀ msg, R (.io p msg) (d, m)) :
    wpE (Disk.sem e) strict H C (storage (.len p)) Q R (d, m) := by
  refine wpE_device hC trivial (fun a d' h => ?_) (fun err d' h => ?_)
  · rcases h with h | ⟨_, ⟨msg, h⟩, _⟩
    · simp only [Disk.Does, Disk.run] at h
      cases hl : (d p).live with
      | none => simp [hl] at h
      | some b =>
        simp only [hl, Prod.mk.injEq, Except.ok.injEq] at h
        obtain ⟨rfl, rfl⟩ := h
        exact ⟨hC, hok b hl⟩
    · cases h
  · rcases h with h | ⟨hf, ⟨msg, h⟩, rfl⟩
    · simp only [Disk.Does, Disk.run] at h
      cases hl : (d p).live with
      | none =>
        simp only [hl, Prod.mk.injEq, Except.error.injEq] at h
        obtain ⟨rfl, rfl⟩ := h
        exact ⟨hC, hmiss hl⟩
      | some b => simp [hl] at h
    · cases h
      exact ⟨hC, herr hf msg⟩

theorem wpE_wrappingSucc {n : Nat} {Q : Nat → Disk × M → Prop} {R : ε → Disk × M → Prop}
    (hC : C (d, m)) (hok : (strict → n + 1 < 2 ^ 64) → Q ((n + 1) % 2 ^ 64) (d, m)) :
    wpE (Disk.sem e) strict H C (wrappingSucc n) Q R (d, m) :=
  wpE_bind.mpr (wpE_fits hC fun h => wpE_pure.mpr ⟨hC, hok h⟩)

end AccretionDb
