import AccretionDb.Lib.Runs
import AccretionDb.Storage.Refine
import AccretionDb.Storage.Rules

/-! # Programs on the simulator

`SimFs.exec` runs a program on the simulator, which is a machine: it answers, or
the program hangs.  `SimFs.Stops` is the same run cut after some storage call.
A precondition proved on the abstract storage holds of both.
-/

namespace AccretionDb

open CrashLogic

variable {M ε α β : Type}

/-- Storage that may answer any call with any outcome. -/
abbrev AnyStorage : Sem StorageOp StorageOp.Resp Unit := Sem.anything StorageOp StorageOp.Resp

namespace SimFs

/-- Run a program. -/
def exec (p : Io M ε α) (s : SimFs) (m : M) : Option (Except ε α × SimFs × M) :=
  eval (memRun run) p.run (s, m)

/-- The run of a program can be cut in this state. -/
def Stops (p : Io M ε α) (s : SimFs) (m : M) (s' : SimFs) (m' : M) : Prop :=
  Cut (memSem (sem Faults.none) False) p.run (s, m) (s', m')

/-- Nothing that the program narrows loses a bit. -/
def Exact (p : Io M ε α) (s : SimFs) (m : M) : Prop := p.run.Exact run (s, m)

instance (p : Io M ε α) (s : SimFs) (m : M) : Decidable (Exact p s m) :=
  Prog.decidableExact run p.run (s, m)

/-- What is left behind the first `n` effects of a program. -/
def cutAt (p : Io M ε α) (n : Nat) (s : SimFs) (m : M) : SimFs × M :=
  p.run.cutAt (memRun run) n (s, m)

/-- A storage that never fails does what the simulator does. -/
theorem eq_run_of_step {o : StorageOp} {s s' : SimFs} {r : StorageOp.Resp o}
    (h : (sem Faults.none).step o s r s') : r = (run o s).1 ∧ s' = (run o s).2 := by
  have hrun : (r, s') = run o s := by
    cases o with
    | append p data =>
      exact h.elim (fun h => h) (·.elim (fun h => h.1.elim) fun ⟨_, _, _, hf, _⟩ => hf.elim)
    | _ => exact h.elim (fun h => h) fun h => h.1.elim
  exact ⟨congrArg Prod.fst hrun, congrArg Prod.snd hrun⟩

/-- No call has to fail. -/
theorem step_run {e : Faults} (o : StorageOp) (s : SimFs) :
    (sem e).step o s (run o s).1 (run o s).2 := by
  cases o <;> exact Or.inl rfl

/-- The simulator, but the calls that `bad` names return an error. -/
def runBut (bad : StorageOp → Bool) (o : StorageOp) (s : SimFs) : o.Resp × SimFs :=
  if bad o then (.error (.io o.target ""), s) else run o s

theorem step_runBut {e : Faults} {bad : StorageOp → Bool} (h : ∀ o, bad o = true → e.fail o)
    (o : StorageOp) (s : SimFs) : (sem e).step o s (runBut bad o s).1 (runBut bad o s).2 := by
  unfold runBut
  by_cases ho : bad o = true
  · rw [if_pos ho]
    cases o with
    | append p data => exact Or.inr (Or.inl ⟨h _ ho, ⟨_, rfl⟩, rfl⟩)
    | _ => exact Or.inr ⟨h _ ho, ⟨_, rfl⟩, rfl⟩
  · rw [if_neg ho]
    exact step_run o s

theorem memSem_run {e : Faults} (o : Eff StorageOp M) (σ : SimFs × M) :
    (memSem (sem e) False).step o σ (memRun run o σ).1 (memRun run o σ).2 :=
  memSem_memRun step_run o σ

theorem completes_of_exec {e : Faults} {p : Io M ε α} {s s' : SimFs} {m m' : M} {r : Except ε α}
    (h : exec p s m = some (r, s', m')) :
    Completes (memSem (sem e) False) p.run (s, m) r (s', m') := completes_of_eval memSem_run h

theorem stops_cutAt (p : Io M ε α) (n : Nat) (s : SimFs) (m : M) :
    Stops p s m (cutAt p n s m).1 (cutAt p n s m).2 := cut_cutAt memSem_run n p.run (s, m)

section Specs

variable {H : Prop} {C : Disk × M → Prop} {p : Io M ε α} {Q : α → Disk × M → Prop}
variable {R : ε → Disk × M → Prop} {s : SimFs} {m : M}

theorem wp_exec {e : Faults} {strict : Prop} (hs : s.Tidy)
    (h : wpE (Disk.sem e) strict H C p Q R (s.disk, m)) :
    wpE (sem e) strict H (fun σ => σ.1.Tidy ∧ C (σ.1.disk, σ.2)) p
      (fun a σ => Q a (σ.1.disk, σ.2)) (fun e σ => R e (σ.1.disk, σ.2)) (s, m) := by
  refine wpE_iff.mpr (wp_post (wp_of_simulates (memSem_simulates (sem_simulates e) strict)
    (s := (s, m)) hs (wpE_iff.mp h)) fun r σ _ hr => ?_)
  cases r with
  | ok a => exact hr
  | error e => exact hr

/-- What a program that answers has done. -/
theorem exec_spec (hs : s.Tidy) (h : wpE (Disk.sem Faults.none) False H C p Q R (s.disk, m))
    {r : Except ε α} {s' : SimFs} {m' : M} (he : exec p s m = some (r, s', m')) :
    s'.Tidy ∧ C (s'.disk, m') ∧ outcome Q R r (s'.disk, m') := by
  have := wp_completes (wpE_iff.mp (wp_exec hs h)) (completes_of_eval memSem_run he)
  refine ⟨this.1.1, this.1.2, ?_⟩
  cases r with
  | ok a => exact this.2
  | error e => exact this.2

/-- A program that is totally correct answers. -/
theorem exec_total (hs : s.Tidy)
    (h : wpE (Disk.sem Faults.none) False False C p Q R (s.disk, m)) :
    ∃ r s' m', exec p s m = some (r, s', m') := by
  cases he : exec p s m with
  | none => exact absurd (hangs_of_eval memSem_run he) (wp_not_hangs (wpE_iff.mp (wp_exec hs h)))
  | some x => exact ⟨x.1, x.2.1, x.2.2, rfl⟩

/-- A program with no way to fail or to hang returns a value. -/
theorem exec_ok (hs : s.Tidy)
    (h : wpE (Disk.sem Faults.none) False False C p Q (fun _ _ => False) (s.disk, m)) :
    ∃ a s' m', exec p s m = some (.ok a, s', m') ∧ s'.Tidy ∧ Q a (s'.disk, m') := by
  obtain ⟨r, s', m', he⟩ := exec_total hs h
  obtain ⟨hs', _, hr⟩ := exec_spec hs h he
  cases r with
  | ok a => exact ⟨a, s', m', he, hs', hr⟩
  | error e => exact hr.elim

/-- What a program that is cut short leaves. -/
theorem stops_spec (hs : s.Tidy) (h : wpE (Disk.sem Faults.none) False H C p Q R (s.disk, m))
    {s' : SimFs} {m' : M} (hc : Stops p s m s' m') : s'.Tidy ∧ C (s'.disk, m') := by
  have := wp_cut (wpE_iff.mp (wp_exec hs h)) hc
  exact this

/-- What a program has done that truncates nothing. -/
theorem exec_exact (hs : s.Tidy) (h : wpE (Disk.sem Faults.none) True H C p Q R (s.disk, m))
    (hx : Exact p s m) {r : Except ε α} {s' : SimFs} {m' : M}
    (he : exec p s m = some (r, s', m')) :
    s'.Tidy ∧ C (s'.disk, m') ∧ outcome Q R r (s'.disk, m') := by
  obtain ⟨⟨ht, hc⟩, hq⟩ := wp_completes (wpE_iff.mp (wp_exec hs h)) (completes_of_exact step_run (fun _ => hx) he)
  refine ⟨ht, hc, ?_⟩
  cases r with
  | ok a => exact hq
  | error err => exact hq

/-- Such a program answers, if it has no way to hang. -/
theorem exec_exact_total (hs : s.Tidy)
    (h : wpE (Disk.sem Faults.none) True False C p Q R (s.disk, m)) (hx : Exact p s m) :
    ∃ r s' m', exec p s m = some (r, s', m') := by
  cases he : exec p s m with
  | none =>
    exact absurd (hangs_of_exact step_run hx he) (wp_not_hangs (wpE_iff.mp (wp_exec hs h)))
  | some x => exact ⟨x.1, x.2.1, x.2.2, rfl⟩

/-- What such a program leaves when it is cut short. -/
theorem stops_exact (hs : s.Tidy) (h : wpE (Disk.sem Faults.none) True H C p Q R (s.disk, m))
    (hx : Exact p s m) {s' : SimFs} {m' : M} (hc : Stops p s m s' m') : s'.Tidy ∧ C (s'.disk, m') := by
  have := wp_cut (wpE_iff.mp (wp_exec hs h)) (cut_of_exact (fun _ _ _ _ => eq_run_of_step) hx hc)
  exact this

end Specs

/-- What a program that answers has done, said of the simulator itself. -/
theorem exec_post {H : Prop} {p : Io M ε α} {C : SimFs × M → Prop} {Q : α → SimFs × M → Prop}
    {R : ε → SimFs × M → Prop} {s s' : SimFs} {m m' : M} {a : α}
    (h : wpE (sem Faults.none) False H C p Q R (s, m)) (he : exec p s m = some (.ok a, s', m')) :
    Q a (s', m') :=
  (wp_completes (wpE_iff.mp h) (completes_of_eval memSem_run he)).2

/-- The simulator is one of the storages that may answer anything. -/
theorem any_simulates : Simulates (sem Faults.none) AnyStorage (fun _ => True) fun _ => () :=
  ⟨fun _ _ _ _ => trivial, fun _ _ _ _ _ _ _ => ⟨trivial, trivial⟩⟩

/-- What a program does on any storage it does on the simulator. -/
theorem exec_any {p : Io M ε α} {Q : α → Prop} {R : ε → Prop} {m m' : M} {s s' : SimFs} {a : α}
    (h : wpE AnyStorage False True (fun _ => True) p (fun a _ => Q a) (fun err _ => R err) ((), m))
    (he : exec p s m = some (.ok a, s', m')) : Q a := by
  have hwp := wp_of_simulates (memSem_simulates any_simulates False) (s := (s, m)) trivial
    (wpE_iff.mp h)
  exact (wp_completes hwp (completes_of_eval memSem_run he)).2

/-- A sequence runs its first step, and then the rest from where that ended. -/
theorem exec_bind_eq (p : Io M ε α) (f : α → Io M ε β) (s : SimFs) (m : M) :
    exec (p >>= f) s m = (exec p s m).bind fun x =>
      match x.1 with
      | .ok a => exec (f a) x.2.1 x.2.2
      | .error err => some (.error err, x.2.1, x.2.2) := by
  have hb : exec (p >>= f) s m = (eval (memRun run) p.run (s, m)).bind fun x =>
      eval (memRun run) (ExceptT.bindCont f x.1) x.2 := eval_bind ..
  rw [hb]
  refine congrArg (Option.bind _) (funext fun x => ?_)
  obtain ⟨r, s₁, m₁⟩ := x
  cases r with
  | ok a => rfl
  | error err => rfl

/-- The steps of a sequence, when it returns a value. -/
theorem exec_bind {p : Io M ε α} {f : α → Io M ε β} {s s' : SimFs} {m m' : M} {b : β}
    (h : exec (p >>= f) s m = some (.ok b, s', m')) :
    ∃ a s₁ m₁, exec p s m = some (.ok a, s₁, m₁) ∧ exec (f a) s₁ m₁ = some (.ok b, s', m') := by
  rw [exec_bind_eq] at h
  obtain ⟨⟨r, s₁, m₁⟩, h1, h2⟩ := Option.bind_eq_some_iff.mp h
  cases r with
  | ok a => exact ⟨a, s₁, m₁, h1, h2⟩
  | error e => cases h2

/-- A sequence whose first step fails. -/
theorem exec_bind_of_error {p : Io M ε α} (f : α → Io M ε β) {s s₁ : SimFs} {m m₁ : M} {err : ε}
    (h : exec p s m = some (.error err, s₁, m₁)) :
    exec (p >>= f) s m = some (.error err, s₁, m₁) := by
  rw [exec_bind_eq, h]
  rfl

/-- Two first steps that do the same. -/
theorem exec_bind_congr {p q : Io M ε α} {s : SimFs} {m : M} (h : exec p s m = exec q s m)
    (f : α → Io M ε β) : exec (p >>= f) s m = exec (q >>= f) s m := by
  rw [exec_bind_eq, exec_bind_eq, h]

/-- Two continuations that do the same behind whatever the first step does. -/
theorem exec_congr {H : Prop} {p : Io M ε α} {f g : α → Io M ε β} {s : SimFs} {m : M}
    {C : Disk × M → Prop} {Q : α → Disk × M → Prop} {R : ε → Disk × M → Prop} (hs : s.Tidy)
    (h : wpE (Disk.sem Faults.none) False H C p Q R (s.disk, m))
    (hfg : ∀ a s' m', s'.Tidy → Q a (s'.disk, m') → exec (f a) s' m' = exec (g a) s' m') :
    exec (p >>= f) s m = exec (p >>= g) s m := by
  rw [exec_bind_eq, exec_bind_eq]
  cases he : exec p s m with
  | none => rfl
  | some x =>
    obtain ⟨r, s', m'⟩ := x
    obtain ⟨hs', -, hq⟩ := exec_spec hs h he
    cases r with
    | ok a => exact hfg a s' m' hs' hq
    | error err => rfl

/-- A program whose errors are rewritten. -/
theorem exec_mapError {ε' : Type} (f : ε → ε') (p : Io M ε α) (s : SimFs) (m : M) :
    exec (p.mapError f) s m = (exec p s m).map fun x => (x.1.mapError f, x.2) := by
  have hb : exec (p.mapError f) s m = (eval (memRun run) p.run (s, m)).bind fun x =>
      some (x.1.mapError f, x.2) := eval_bind ..
  rw [hb, Option.map_eq_bind]
  rfl

/-- A program with a memory of its own leaves the other as it was. -/
theorem exec_scope {N : Type} (n : N) (p : Io N ε α) (s : SimFs) (m : M) :
    exec (Act.scope n p) s m = (exec p s n).map fun x => (x.1, x.2.1, m) := by
  have hrun : ∀ (q : Prog (Eff StorageOp N) _ (Except ε α)) (s : SimFs) (n : N),
      eval (memRun run) (Prog.scope (M := M) q n) (s, m) =
        (eval (memRun run) q (s, n)).map fun x => (x.1, x.2.1, m) := by
    intro q
    induction q with
    | ret a => exact fun _ _ => rfl
    | hang => exact fun _ _ => rfl
    | op o k ih =>
      intro s n
      cases o with
      | io o => exact ih _ _ n
      | fits p => exact ih _ s n
      | upd f => exact ih n s (f n)
  exact hrun p.run s n

/-- A part of the memory is all that a zoomed program sees. -/
theorem exec_zoom {N : Type} (l : Part M N) (p : Io N ε α) (s : SimFs) (m : M) :
    exec (p.zoom l) s m = (exec p s (l.get m)).map fun x => (x.1, x.2.1, l.set x.2.2 m) := by
  have hrun : ∀ (q : Prog (Eff StorageOp N) _ (Except ε α)) (s : SimFs) (n : N) (m : M),
      eval (memRun run) (Prog.zoom l q) (s, l.set n m) =
        (eval (memRun run) q (s, n)).map fun x => (x.1, x.2.1, l.set x.2.2 m) := by
    intro q
    induction q with
    | ret a => exact fun _ _ _ => rfl
    | hang => exact fun _ _ _ => rfl
    | op o k ih =>
      intro s n m
      cases o with
      | io o => exact ih _ _ n m
      | fits p => exact ih _ s n m
      | upd f =>
        show eval (memRun run) (Prog.zoom l (k (l.get (l.set n m))))
          (s, l.set (f (l.get (l.set n m))) (l.set n m)) = _
        rw [l.get_set, l.set_set]
        exact ih n s (f n) m
  have h := hrun p.run s (l.get m) m
  rw [l.set_get] at h
  exact h

/-- A program whose errors are values. -/
theorem exec_attempt {ε' : Type} (p : Io M ε α) (s : SimFs) (m : M) :
    exec (p.attempt : Io M ε' _) s m = (exec p s m).map fun x => (.ok x.1, x.2) := by
  have hb : exec (p.attempt : Io M ε' _) s m = (eval (memRun run) p.run (s, m)).bind fun x =>
      some (.ok x.1, x.2) := eval_bind ..
  rw [hb, Option.map_eq_bind]
  rfl

/-- A sequence is exact if its first step is, and the rest from where that ended. -/
theorem exact_bind {p : Io M ε α} {f : α → Io M ε β} {s : SimFs} {m : M} (hp : Exact p s m)
    (hf : ∀ a s' m', exec p s m = some (.ok a, s', m') → Exact (f a) s' m') :
    Exact (p >>= f) s m := by
  refine Prog.exact_bind hp fun r τ he => ?_
  cases r with
  | ok a => exact hf a τ.1 τ.2 he
  | error err => trivial

theorem exact_get {f : M → Io M ε α} {s : SimFs} {m : M} (h : Exact (f m) s m) :
    Exact (Act.get >>= f) s m := h

theorem exact_modifyGet {g : M → M} {f : M → Io M ε α} {s : SimFs} {m : M}
    (h : Exact (f m) s (g m)) : Exact (Act.modifyGet g >>= f) s m := h

theorem exact_zoom {N : Type} (l : Part M N) {p : Io N ε α} {s : SimFs} {m : M}
    (hp : Exact p s (l.get m)) : Exact (p.zoom l) s m := by
  have h := Prog.exact_zoom l (μ := m) hp
  rw [l.set_get] at h
  exact h

theorem exact_attempt {ε' : Type} {p : Io M ε α} {s : SimFs} {m : M} (hp : Exact p s m) :
    Exact (p.attempt : Io M ε' _) s m := Prog.exact_bind hp fun _ _ _ => trivial

/-- A sequence whose first step returns a value. -/
theorem exec_bind_of_ok {p : Io M ε α} (f : α → Io M ε β) {s s₁ : SimFs} {m m₁ : M} {a : α}
    (h : exec p s m = some (.ok a, s₁, m₁)) : exec (p >>= f) s m = exec (f a) s₁ m₁ := by
  have hb : exec (p >>= f) s m = (eval (memRun run) p.run (s, m)).bind fun x =>
      eval (memRun run) (ExceptT.bindCont f x.1) x.2 := eval_bind ..
  rw [hb, show eval (memRun run) p.run (s, m) = _ from h]
  rfl

/-- **Any bytes can be in a file**, beside what there is. -/
theorem exists_write {s : SimFs} (hs : s.Tidy) {p : Path} (hfree : (s.disk p).live = none)
    (c : Bytes) : ∃ s' : SimFs, s'.Tidy ∧ (s'.disk p).live.map Blob.content = some c ∧
      ∀ q, q ≠ p → (s'.disk q).live = (s.disk q).live := by
  have hno : Faults.none.Any → ∀ P : Prop, P := fun ha _ => absurd ha Faults.not_any_none
  have hput := Disk.live_put s.disk p (Blob.empty.append c)
  obtain ⟨_, s', _, -, hs', hlive⟩ := exec_ok (C := fun _ => True) (m := ())
    (p := (do
      storage (.create p)
      let _ ← storage (.append p c)
      pure () : Io Unit StorageError Unit))
    (Q := fun _ σ => (σ.1 p).live.map Blob.content = some c ∧
      ∀ q, q ≠ p → (σ.1 q).live = (s.disk q).live) hs (by
      refine wpE_bind.mpr (wpE_create trivial hfree ⟨trivial, ?_⟩ fun hf _ =>
        hno (Faults.any_of_fail hf) _)
      refine wpE_bind.mpr (wpE_append_put (fun _ => trivial) ?_ fun ha _ _ => hno ha _)
      refine wpE_pure.mpr ⟨trivial, ?_, fun q hq => ?_⟩
      · rw [hput, Option.map_some, Blob.content_append]
        rfl
      · exact congrArg Slot.live (Disk.put_of_ne hq _))
  exact ⟨s', hs', hlive⟩

/-- A new file with these bytes. -/
def place (s : SimFs) (p : Path) (c : Bytes) : SimFs := ((s.create p).2.append p c).2

theorem place_tidy {s : SimFs} (hs : s.Tidy) (p : Path) (c : Bytes) : (place s p c).Tidy :=
  (run_refines (run_refines hs (.create p) trivial).1 (.append p c) trivial).1

/-! ### The bytes of a file -/

/-- The bytes a path's file has. -/
def contents (s : SimFs) (p : Path) : Option Bytes :=
  (s.files p).liveInode.map fun i => (s.inodes i).live

theorem Tidy.contents {s : SimFs} (hs : s.Tidy) (p : Path) :
    s.contents p = (s.disk p).live.map Blob.content := by
  rw [SimFs.contents, disk, live_slot, Option.map_map]
  refine congrArg (fun g => Option.map g _) (funext fun i => ?_)
  exact (content_blob (hs.durable_prefix i)).symm

theorem Tidy.exists_blob {s : SimFs} (hs : s.Tidy) {p : Path} {c : Bytes}
    (h : s.contents p = some c) : ∃ f, (s.disk p).live = some f ∧ f.content = c := by
  rw [hs.contents, Option.map_eq_some_iff] at h
  exact h

/-- Any bytes can be in a file. -/
theorem exists_contents (p : Path) (c : Bytes) :
    ∃ s : SimFs, s.Tidy ∧ s.contents p = some c := by
  obtain ⟨s, hs, hc, -⟩ := exists_write (new_tidy fun _ => 0) (p := p) rfl c
  exact ⟨s, hs, by rw [hs.contents, hc]⟩

/-! ### Power loss -/

/-- `P` holds between the bytes of the file at `p` and what a power loss leaves of
them. -/
def TornAt (s : SimFs) (P : Bytes → Bytes → Prop) (p : Path) : Prop :=
  ∀ i, (s.files p).durableInode = some i → P (s.inodes i).live (s.crash.inodes i).live

theorem TornAt.of_disk {s : SimFs} (hs : s.Tidy) {P : Bytes → Bytes → Prop} {p : Path}
    (h : s.TornAt P p) {g b : Blob} (hg : (s.disk p).durable = some g)
    (hb : s.crash.disk p = .kept b) : P g.content b.content := by
  rw [disk, durable_slot] at hg
  rw [slot_crash hs] at hb
  cases hi : (s.files p).durableInode with
  | none =>
    rw [hi] at hg
    cases hg
  | some i =>
    rw [hi] at hg hb
    cases hg
    cases hb
    have := h i hi
    rw [crash_inodes hs hi] at this
    rw [content_blob (hs.durable_prefix i), Blob.content_mk, List.append_nil]
    exact this

/-- A power loss now cuts the files, which are shorter than `2 ^ 32` bytes, and turns no
bit. -/
def OnlyCuts (s : SimFs) : Prop :=
  ∀ p ∈ s.paths, ∀ i ∈ (s.files p).durableInode,
    (s.crash.inodes i).live <+: (s.inodes i).live ∧ (s.inodes i).live.length < 2 ^ 32

instance (s : SimFs) : Decidable s.OnlyCuts :=
  inferInstanceAs (Decidable (∀ p ∈ s.paths, ∀ i ∈ (s.files p).durableInode, _ ∧ _))

/-! ### Files with nothing to lose -/

/-- The inode has no unsynced bytes. -/
def Synced (s : SimFs) (i : Nat) : Prop := (s.inodes i).live = (s.inodes i).durable

theorem Synced.bump {s : SimFs} {i : Nat} (h : s.Synced i) : s.bump.Synced i := by
  unfold SimFs.bump
  cases s.crashAfter with
  | none => exact h
  | some n =>
    dsimp only
    by_cases hn : n ≤ s.opCount + 1
    · rw [if_pos hn]
      exact crash_inodes_synced _ i
    · rw [if_neg hn]
      exact h

theorem Synced.collect {s : SimFs} {i : Nat} (h : s.Synced i) :
    s.collectUnreferencedInodes.Synced i := by
  show (if s.referenced i then s.inodes i else .default).live =
    (if s.referenced i then s.inodes i else .default).durable
  by_cases hr : s.referenced i = true
  · rw [if_pos hr]
    exact h
  · rw [if_neg hr]
    rfl

theorem Synced.create {s : SimFs} {i : Nat} (h : s.Synced i) (p : Path) :
    (s.create p).2.Synced i := by
  unfold SimFs.create
  cases (s.files p).liveInode with
  | some _ => exact h
  | none =>
    refine Synced.bump ?_
    by_cases hi : i = s.nextInode
    · simp [Synced, setFile, setInode, hi, InodeState.default]
    · simpa [Synced, setFile, setInode, hi] using h

theorem Synced.append {s : SimFs} {i : Nat} (h : s.Synced i) {p : Path} (data : Bytes)
    (hp : (s.files p).liveInode ≠ some i) : (s.append p data).2.Synced i := by
  unfold SimFs.append
  cases hj : (s.files p).liveInode with
  | none => exact h
  | some j =>
    rw [hj] at hp
    refine Synced.bump ?_
    have hij : i ≠ j := fun e => hp (by rw [e])
    simpa [Synced, setInode, hij] using h

theorem Synced.syncFile {s : SimFs} {p : Path} {i : Nat}
    (h : (s.files p).liveInode ≠ some i → s.Synced i) : (s.syncFile p).2.Synced i := by
  unfold SimFs.syncFile
  cases hj : (s.files p).liveInode with
  | none => exact h (by rw [hj]; exact nofun)
  | some j =>
    refine Synced.bump ?_
    by_cases hij : i = j
    · simp [Synced, setInode, hij]
    · simpa [Synced, setInode, hij] using h (by rw [hj]; exact fun e => hij (Option.some.inj e).symm)

/-- No file has unsynced bytes. -/
structure Flushed (s : SimFs) : Prop where
  tidy : s.Tidy
  synced : ∀ i, s.Synced i

theorem Flushed.tornAt {s : SimFs} (h : s.Flushed) {P : Bytes → Bytes → Prop} (hP : ∀ b, P b b)
    (p : Path) : s.TornAt P p := by
  intro i hi
  have ht : (s.inodes i).blob.tail = [] := by
    show (s.inodes i).live.drop (s.inodes i).durable.length = []
    rw [h.synced i, List.drop_length]
  rw [crash_inodes h.tidy hi]
  show P _ (s.tornInode i)
  rw [(torn_tornInode s i).of_tail_eq_nil ht, h.synced i]
  exact hP _

/-- Only the file at `p` may have unsynced bytes. -/
structure FlushedBut (p : Path) (s : SimFs) : Prop where
  tidy : s.Tidy
  synced : ∀ i, (s.files p).liveInode ≠ some i → s.Synced i

theorem Flushed.create {s : SimFs} (h : s.Flushed) (p : Path) : (s.create p).2.Flushed :=
  ⟨(run_refines h.tidy (.create p) trivial).1, fun i => (h.synced i).create p⟩

theorem Flushed.syncDir {s : SimFs} (h : s.Flushed) (dir : Dir) : (s.syncDir dir).2.Flushed :=
  ⟨(run_refines h.tidy (.syncDir dir) trivial).1, fun i => Synced.bump (Synced.collect (h.synced i))⟩

theorem Flushed.append {s : SimFs} (h : s.Flushed) (p : Path) (data : Bytes) :
    (s.append p data).2.FlushedBut p := by
  refine ⟨(run_refines h.tidy (.append p data) trivial).1, fun i => ?_⟩
  unfold SimFs.append
  cases hj : (s.files p).liveInode with
  | none => exact fun _ => h.synced i
  | some j =>
    simp only [SimFs.bump]
    split
    · intro hi
      have hij : i ≠ j := fun e => hi (by rw [e]; exact hj)
      simpa [Synced, setInode, hij] using h.synced i
    · split
      · exact fun _ => crash_inodes_synced _ i
      · intro hi
        have hij : i ≠ j := fun e => hi (by rw [e]; exact hj)
        simpa [Synced, setInode, hij] using h.synced i

theorem FlushedBut.syncFile {s : SimFs} {p : Path} (h : s.FlushedBut p) :
    (s.syncFile p).2.Flushed :=
  ⟨(run_refines h.tidy (.syncFile p) trivial).1, fun i => Synced.syncFile (h.synced i)⟩

theorem Flushed.but {s : SimFs} (h : s.Flushed) (p : Path) : s.FlushedBut p :=
  ⟨h.tidy, fun i _ => h.synced i⟩

/-- One call of a storage that never fails does what it does. -/
theorem wpE_run {H : Prop} {s : SimFs} {m : M} {o : StorageOp} {Q : o.Ret → SimFs × M → Prop}
    (h : ∀ a, Q a ((run o s).2, m)) :
    wpE (sem Faults.none) False H (fun _ => True) (storage o) Q (fun _ _ => True) (s, m) := by
  refine wpE_device trivial trivial (fun a s' hs => ⟨trivial, ?_⟩) fun _ _ _ => ⟨trivial, trivial⟩
  rw [(eq_run_of_step hs).2]
  exact h a

end SimFs

end AccretionDb
