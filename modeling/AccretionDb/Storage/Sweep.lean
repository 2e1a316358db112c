import AccretionDb.Storage.Exec
import AccretionDb.Storage.Injector

/-! # Crash sweeps

The test kit runs a body once to count its storage operations, and then once for every
count, with a crash armed that fires when so many are done.  Behind the crash the injector
rejects what the body still writes.  So what is verified is what a power loss behind some
operation of the run leaves, and every power loss of the run is verified
(`crashSweep_exhaustive`).

A body that panics is a program that throws, one that does not come back hangs.
-/

namespace AccretionDb

open CrashLogic

namespace SimFs

/-! ### An armed crash -/

/-- No crash is armed, and none has fired. -/
structure Unharmed (s : SimFs) : Prop where
  unarmed : s.crashAfter = none
  unreported : s.lastReport = none

variable {s : SimFs} {n : Nat}

theorem Unharmed.new (rng : Nat → Nat) : (SimFs.new rng).Unharmed := ⟨rfl, rfl⟩

theorem crash_armed (s : SimFs) (n : Nat) : (s.armCrashAfter n).crash = s.crash := by
  have htarget : (s.armCrashAfter n).tearTarget = s.tearTarget := rfl
  unfold crash
  rw [htarget]
  cases s.tearTarget <;> rfl

theorem lastReport_crash (s : SimFs) :
    s.crash.lastReport.map CrashReport.opsBeforeCrash = some s.opCount := by
  unfold crash
  cases s.tearTarget <;> rfl

theorem isSome_lastReport_crash (s : SimFs) : s.crash.lastReport.isSome = true := by
  unfold crash
  cases s.tearTarget <;> rfl

theorem Unharmed.bump_eq (h : s.Unharmed) : s.bump = { s with opCount := s.opCount + 1 } := by
  simp only [bump, h.unarmed]

theorem Unharmed.bump_armed (h : s.Unharmed) (n : Nat) : (s.armCrashAfter n).bump =
    if n ≤ s.bump.opCount then s.bump.crash else s.bump.armCrashAfter n := by
  rw [h.bump_eq, ← crash_armed _ n]
  rfl

/-- What a call does to the simulator, and to an armed one: nothing, or it is a mutating one
that counts. -/
theorem run_cases (o : StorageOp) (s : SimFs) :
    (run o s).2 = s ∧ (∀ n, run o (s.armCrashAfter n) = ((run o s).1, s.armCrashAfter n)) ∨
      o.mutating = true ∧ ∃ t : SimFs, (run o s).2 = t.bump ∧
        (∀ n, run o (s.armCrashAfter n) = ((run o s).1, (t.armCrashAfter n).bump)) ∧
        t.opCount = s.opCount ∧ t.crashAfter = s.crashAfter ∧ t.lastReport = s.lastReport := by
  have hfiles : ∀ n, (s.armCrashAfter n).files = s.files := fun _ => rfl
  cases o with
  | create p =>
    simp only [run, create, hfiles]
    cases (s.files p).liveInode with
    | some i => exact Or.inl ⟨rfl, fun _ => rfl⟩
    | none => exact Or.inr ⟨rfl, _, rfl, fun _ => rfl, rfl, rfl, rfl⟩
  | «open» p =>
    simp only [run, «open», hfiles]
    cases (s.files p).liveInode <;> exact Or.inl ⟨rfl, fun _ => rfl⟩
  | append p data =>
    simp only [run, append, hfiles]
    cases (s.files p).liveInode with
    | none => exact Or.inl ⟨rfl, fun _ => rfl⟩
    | some i => exact Or.inr ⟨rfl, _, rfl, fun _ => rfl, rfl, rfl, rfl⟩
  | writeAt p offset data =>
    have hinodes : ∀ n, (s.armCrashAfter n).inodes = s.inodes := fun _ => rfl
    simp only [run, writeAt, hfiles, hinodes]
    cases (s.files p).liveInode with
    | none => exact Or.inl ⟨rfl, fun _ => rfl⟩
    | some i =>
      by_cases hb : offset > (s.inodes i).live.length ∨
          offset + data.length > (s.inodes i).live.length
      · refine Or.inl ⟨?_, fun _ => ?_⟩ <;> simp only [if_pos hb]
      · simp only [hb, if_false]
        exact Or.inr ⟨rfl, _, rfl, fun _ => rfl, rfl, rfl, rfl⟩
  | readAt p offset len =>
    have hinodes : ∀ n, (s.armCrashAfter n).inodes = s.inodes := fun _ => rfl
    simp only [run, readAt, hfiles, hinodes]
    cases (s.files p).liveInode with
    | none => exact Or.inl ⟨rfl, fun _ => rfl⟩
    | some i =>
      by_cases hb : offset > (s.inodes i).live.length
      · refine Or.inl ⟨?_, fun _ => ?_⟩ <;> simp only [if_pos hb]
      · refine Or.inl ⟨?_, fun _ => ?_⟩ <;> simp only [if_neg hb]
  | syncFile p =>
    simp only [run, syncFile, hfiles]
    cases (s.files p).liveInode with
    | none => exact Or.inl ⟨rfl, fun _ => rfl⟩
    | some i => exact Or.inr ⟨rfl, _, rfl, fun _ => rfl, rfl, rfl, rfl⟩
  | syncDir d => exact Or.inr ⟨rfl, _, rfl, fun _ => rfl, rfl, rfl, rfl⟩
  | rename src dst =>
    simp only [run, rename, hfiles]
    cases (s.files src).liveInode with
    | none => exact Or.inl ⟨rfl, fun _ => rfl⟩
    | some i =>
      by_cases he : src = dst
      · simp only [he, if_true]
        exact Or.inr ⟨rfl, _, rfl, fun _ => rfl, rfl, rfl, rfl⟩
      · simp only [he, if_false]
        exact Or.inr ⟨rfl, _, rfl, fun _ => rfl, rfl, rfl, rfl⟩
  | delete p =>
    simp only [run, delete, hfiles]
    cases (s.files p).liveInode with
    | none => exact Or.inl ⟨rfl, fun _ => rfl⟩
    | some i => exact Or.inr ⟨rfl, _, rfl, fun _ => rfl, rfl, rfl, rfl⟩
  | list d => exact Or.inl ⟨rfl, fun _ => rfl⟩
  | len p =>
    simp only [run, len, hfiles]
    cases (s.files p).liveInode <;> exact Or.inl ⟨rfl, fun _ => rfl⟩

/-- **A call counts if it changes anything.** -/
theorem Unharmed.run (h : s.Unharmed) (o : StorageOp) : (SimFs.run o s).2.Unharmed ∧
    ((SimFs.run o s).2 = s ∨
      o.mutating = true ∧ (SimFs.run o s).2.opCount = s.opCount + 1) := by
  rcases run_cases o s with ⟨hs, -⟩ | ⟨ho, t, hs, -, hcount, harm, hreport⟩
  · rw [hs]
    exact ⟨h, Or.inl rfl⟩
  · have ht : t.Unharmed := ⟨harm.trans h.unarmed, hreport.trans h.unreported⟩
    rw [hs, ht.bump_eq]
    exact ⟨⟨ht.unarmed, ht.unreported⟩, Or.inr ⟨ho, congrArg (· + 1) hcount⟩⟩

/-- **The armed simulator does the same**, and crashes when the count is reached. -/
theorem Unharmed.run_armed (h : s.Unharmed) (hn : s.opCount < n) (o : StorageOp) :
    SimFs.run o (s.armCrashAfter n) = ((SimFs.run o s).1,
      if n ≤ (SimFs.run o s).2.opCount then (SimFs.run o s).2.crash
      else (SimFs.run o s).2.armCrashAfter n) := by
  rcases run_cases o s with ⟨hs, harmed⟩ | ⟨-, t, hs, harmed, hcount, harm, hreport⟩
  · rw [harmed, hs, if_neg (Nat.not_le.mpr hn)]
  · have ht : t.Unharmed := ⟨harm.trans h.unarmed, hreport.trans h.unreported⟩
    rw [harmed, hs, ht.bump_armed]

/-- A call that only reads. -/
theorem run_reading {o : StorageOp} (ho : o.mutating = false) (s : SimFs) : (run o s).2 = s := by
  rcases run_cases o s with ⟨hs, -⟩ | ⟨hm, -⟩
  · exact hs
  · rw [ho] at hm
    cases hm

end SimFs

/-! ### The injector of one thread -/

namespace CrashInjector

/-- A call through the injector while no other thread moves: the simulator and `halted`. -/
def inject (o : StorageOp) (x : SimFs × Bool) : o.Resp × (SimFs × Bool) :=
  if o.mutating then
    if x.2 then
      (.error (.io o.target "simulated power loss: process halted after crash"), x)
    else
      let (r, inner) := SimFs.run o x.1
      (r, (inner, x.2 || inner.lastReport.isSome))
  else
    let (r, inner) := SimFs.run o x.1
    (r, (inner, x.2))

variable {s : SimFs} {n : Nat}

/-- Up to the crash the body sees what it would see without one. -/
theorem inject_live (h : s.Unharmed) (hn : s.opCount < n) (o : StorageOp) :
    (inject o (s.armCrashAfter n, false)).1 = (SimFs.run o s).1 ∧
      ((SimFs.run o s).2.opCount < n ∧
          (inject o (s.armCrashAfter n, false)).2 = ((SimFs.run o s).2.armCrashAfter n, false) ∨
        (SimFs.run o s).2.opCount = n ∧
          (inject o (s.armCrashAfter n, false)).2 = ((SimFs.run o s).2.crash, true)) := by
  obtain ⟨hnext, hcount⟩ := h.run o
  by_cases ho : o.mutating = true
  · simp only [inject, ho, Bool.false_eq_true, if_true, if_false, h.run_armed hn, Bool.false_or]
    refine ⟨trivial, ?_⟩
    by_cases hle : n ≤ (SimFs.run o s).2.opCount
    · have hge : (SimFs.run o s).2.opCount ≤ s.opCount + 1 := by
        rcases hcount with hsame | ⟨-, hmore⟩
        · rw [hsame]
          exact Nat.le_succ _
        · exact Nat.le_of_eq hmore
      simp only [if_pos hle, SimFs.isSome_lastReport_crash]
      exact Or.inr ⟨by omega, trivial⟩
    · have hreport : ((SimFs.run o s).2.armCrashAfter n).lastReport.isSome = false := by
        show (SimFs.run o s).2.lastReport.isSome = false
        rw [hnext.unreported]
        rfl
      simp only [if_neg hle, hreport]
      exact Or.inl ⟨Nat.not_le.mp hle, trivial⟩
  · rw [Bool.not_eq_true] at ho
    have hsame := SimFs.run_reading ho s
    simp only [inject, ho, Bool.false_eq_true, if_false, h.run_armed hn, hsame,
      if_neg (Nat.not_le.mpr hn)]
    exact ⟨trivial, Or.inl ⟨hn, trivial⟩⟩

/-- Behind the crash the image stays. -/
theorem inject_dead (o : StorageOp) (s : SimFs) : (inject o (s, true)).2 = (s, true) := by
  by_cases ho : o.mutating = true
  · simp only [inject, ho, if_true]
  · rw [Bool.not_eq_true] at ho
    simp only [inject, ho, Bool.false_eq_true, if_false, SimFs.run_reading ho s]

end CrashInjector

/-! ### The drivers -/

section Drivers

variable {M ε α : Type}

/-- `count_ops`, if the body comes back. -/
def countOps (rng : Nat → Nat) (body : Io M ε α) (m : M) : Option Nat :=
  match SimFs.exec body (.new rng) m with
  | some (.ok _, s, _) => some s.opCount
  | _ => none

/-- `run_crash`: the image that is verified.  A panic without a crash is raised again. -/
def runCrash (rng : Nat → Nat) (body : Io M ε α) (m : M) (crashAfter : Nat) : Option SimFs :=
  match eval (memRun CrashInjector.inject) body.run
    (((SimFs.new rng).armCrashAfter crashAfter, false), m) with
  | some (r, (inner, _), _) =>
    match inner.lastReport, r with
    | some _, _ => some inner
    | none, .ok _ => some inner.crash
    | none, .error _ => none
  | none => none

/-- `crash_sweep`: the images that are verified, in their order. -/
def crashSweep (rng : Nat → Nat) (body : Io M ε α) (m : M) : Option (List SimFs) := do
  let n ← countOps rng body m
  (List.range' 1 n).mapM (runCrash rng body m)

variable {rng : Nat → Nat} {body : Io M ε α} {m : M} {n N : Nat} {x : SimFs}

/-- The run of a body is the only one that the simulator has. -/
theorem memSem_eq_run (o : Eff StorageOp M) (σ : SimFs × M) (r : Eff.Resp StorageOp.Resp o)
    (σ' : SimFs × M) (h : (memSem (SimFs.sem Faults.none) False).step o σ r σ') :
    r = (memRun SimFs.run o σ).1 ∧ σ' = (memRun SimFs.run o σ).2 := by
  cases o with
  | io o =>
    obtain ⟨hr, hs⟩ := SimFs.eq_run_of_step h.1
    exact ⟨hr, Prod.ext hs h.2⟩
  | upd f => exact h
  | fits p => exact ⟨rfl, h.2⟩

theorem counted_run : Counted (memRun (M := M) SimFs.run) (fun σ => σ.1.Unharmed) Prod.fst
    SimFs.opCount := by
  intro o σ hσ
  cases o with
  | io o => exact ⟨(hσ.run o).1, (hσ.run o).2.imp_right And.right⟩
  | upd f => exact ⟨hσ, Or.inl rfl⟩
  | fits p => exact ⟨hσ, Or.inl rfl⟩

theorem exec_of_countOps (h : countOps rng body m = some N) :
    ∃ a s m', SimFs.exec body (.new rng) m = some (.ok a, s, m') ∧ s.opCount = N := by
  unfold countOps at h
  cases he : SimFs.exec body (.new rng) m with
  | none =>
    rw [he] at h
    cases h
  | some y =>
    rw [he] at h
    obtain ⟨r, s, m'⟩ := y
    cases r with
    | ok a => exact ⟨a, s, m', rfl, Option.some.inj h⟩
    | error e => cases h

/-- **The body runs until the crash fires.**  It is done before that, or the image is what
a power loss leaves at a cut. -/
theorem eval_inject (hpos : 0 < n) {r : Except ε α} {inner : SimFs} {halted : Bool} {m' : M}
    (h : eval (memRun CrashInjector.inject) body.run
      (((SimFs.new rng).armCrashAfter n, false), m) = some (r, (inner, halted), m')) :
    (∃ s, SimFs.exec body (.new rng) m = some (r, s, m') ∧ s.opCount < n) ∨
      ∃ s m'', SimFs.Stops body (.new rng) m s m'' ∧ s.opCount = n ∧ inner = s.crash := by
  let live (σ : SimFs × M) (τ : (SimFs × Bool) × M) : Prop :=
    σ.1.Unharmed ∧ σ.1.opCount < n ∧ τ = ((σ.1.armCrashAfter n, false), σ.2)
  let dead (σ : SimFs × M) (τ : (SimFs × Bool) × M) : Prop :=
    σ.1.opCount = n ∧ τ.1 = (σ.1.crash, true)
  have hlive : ∀ (o : Eff StorageOp M) σ τ, live σ τ →
      (memRun CrashInjector.inject o τ).1 = (memRun SimFs.run o σ).1 ∧
        (live (memRun SimFs.run o σ).2 (memRun CrashInjector.inject o τ).2 ∨
          dead (memRun SimFs.run o σ).2 (memRun CrashInjector.inject o τ).2) := by
    rintro o σ _ ⟨hσ, hlt, rfl⟩
    cases o with
    | io o =>
      obtain ⟨hr, hnext⟩ := CrashInjector.inject_live hσ hlt o
      refine ⟨hr, hnext.imp (fun ⟨hlt', he⟩ => ?_) fun h => h⟩
      exact ⟨(hσ.run o).1, hlt', Prod.ext he rfl⟩
    | upd f => exact ⟨rfl, Or.inl ⟨hσ, hlt, rfl⟩⟩
    | fits p => exact ⟨rfl, Or.inl ⟨hσ, hlt, rfl⟩⟩
  have hdead : ∀ (o : Eff StorageOp M) σ τ, dead σ τ →
      dead σ (memRun CrashInjector.inject o τ).2 := by
    rintro o σ ⟨_, m₁⟩ ⟨hcount, rfl⟩
    cases o with
    | io o => exact ⟨hcount, CrashInjector.inject_dead o σ.1.crash⟩
    | upd f => exact ⟨hcount, rfl⟩
    | fits p => exact ⟨hcount, rfl⟩
  have hstart : live (.new rng, m) (((SimFs.new rng).armCrashAfter n, false), m) :=
    ⟨.new rng, hpos, rfl⟩
  rcases eval_until (F := memSem (SimFs.sem Faults.none) False) SimFs.memSem_run hlive hdead
      hstart h with ⟨σ, hσ, -, hlt, he⟩ | ⟨σ, hcut, hcount, he⟩
  · obtain rfl : m' = σ.2 := congrArg Prod.snd he
    exact Or.inl ⟨σ.1, hσ, hlt⟩
  · exact Or.inr ⟨σ.1, σ.2, hcut, hcount, congrArg Prod.fst he⟩

/-- **A crash leaves what a power loss leaves** behind the operation it was armed for. -/
theorem stops_of_runCrash (hN : countOps rng body m = some N) (hpos : 0 < n) (hn : n ≤ N)
    (h : runCrash rng body m n = some x) :
    ∃ s m', SimFs.Stops body (.new rng) m s m' ∧ s.opCount = n ∧ x = s.crash := by
  obtain ⟨a, s, m', hexec, rfl⟩ := exec_of_countOps hN
  unfold runCrash at h
  cases he : eval (memRun CrashInjector.inject) body.run
    (((SimFs.new rng).armCrashAfter n, false), m) with
  | none =>
    rw [he] at h
    cases h
  | some y =>
    rw [he] at h
    obtain ⟨r, ⟨inner, halted⟩, m''⟩ := y
    rcases eval_inject hpos he with ⟨t, ht, hlt⟩ | ⟨t, m₁, hstops, hcount, rfl⟩
    · -- the operation is one of those that the body does
      obtain ⟨-, hend⟩ := Prod.mk.inj (Option.some.inj (hexec.symm.trans ht))
      obtain ⟨rfl, -⟩ := Prod.mk.inj hend
      exact absurd hlt (Nat.not_lt.mpr hn)
    · obtain ⟨report, hreport⟩ := Option.isSome_iff_exists.mp (SimFs.isSome_lastReport_crash t)
      simp only [hreport] at h
      exact ⟨t, m₁, hstops, hcount, (Option.some.inj h).symm⟩

/-- A crash run has an image if the body comes back from it. -/
theorem isSome_runCrash (hN : countOps rng body m = some N) (hpos : 0 < n) (hn : n ≤ N) :
    (runCrash rng body m n).isSome = (eval (memRun CrashInjector.inject) body.run
      (((SimFs.new rng).armCrashAfter n, false), m)).isSome := by
  obtain ⟨a, s, m', hexec, rfl⟩ := exec_of_countOps hN
  unfold runCrash
  cases he : eval (memRun CrashInjector.inject) body.run
    (((SimFs.new rng).armCrashAfter n, false), m) with
  | none => rfl
  | some y =>
    obtain ⟨r, ⟨inner, halted⟩, m''⟩ := y
    rcases eval_inject hpos he with ⟨t, ht, hlt⟩ | ⟨t, m₁, -, -, rfl⟩
    · -- the body ends before the crash, and then it does not do so many operations
      obtain ⟨-, hend⟩ := Prod.mk.inj (Option.some.inj (hexec.symm.trans ht))
      obtain ⟨rfl, -⟩ := Prod.mk.inj hend
      exact absurd hlt (Nat.not_lt.mpr hn)
    · obtain ⟨report, hreport⟩ := Option.isSome_iff_exists.mp (SimFs.isSome_lastReport_crash t)
      simp only [hreport, Option.isSome_some]

theorem isSome_mapM {α β : Type} {f : α → Option β} : ∀ {l : List α},
    (l.mapM f).isSome = true ↔ ∀ a ∈ l, (f a).isSome = true := by
  intro l
  induction l with
  | nil => exact ⟨fun _ a ha => absurd ha List.not_mem_nil, fun _ => rfl⟩
  | cons a l ih =>
    rw [List.mapM_cons, List.forall_mem_cons, ← ih]
    cases f a with
    | none => exact ⟨fun h => absurd h Bool.false_ne_true, fun h => absurd h.1 Bool.false_ne_true⟩
    | some b =>
      cases l.mapM f with
      | none =>
        exact ⟨fun h => absurd h Bool.false_ne_true, fun h => absurd h.2 Bool.false_ne_true⟩
      | some bs => exact ⟨fun _ => ⟨rfl, rfl⟩, fun _ => rfl⟩

/-- **A crash sweep returns if the body does**: in the run that is counted, with `Ok`, and
in every run in which the power goes, somehow. -/
theorem isSome_crashSweep : (crashSweep rng body m).isSome = true ↔
    ∃ N, countOps rng body m = some N ∧ ∀ n, 0 < n → n ≤ N →
      (eval (memRun CrashInjector.inject) body.run
        (((SimFs.new rng).armCrashAfter n, false), m)).isSome = true := by
  unfold crashSweep
  cases hN : countOps rng body m with
  | none => exact ⟨fun h => absurd h Bool.false_ne_true, fun ⟨N, h, _⟩ => nomatch h⟩
  | some N =>
    have hsome : ((List.range' 1 N).mapM (runCrash rng body m)).isSome = true ↔
        ∀ n ∈ List.range' 1 N, (runCrash rng body m n).isSome = true := isSome_mapM
    refine hsome.trans ?_
    constructor
    · intro h
      refine ⟨N, rfl, fun n hpos hn => ?_⟩
      rw [← isSome_runCrash hN hpos hn]
      exact h n (List.mem_range'_1.mpr ⟨hpos, by omega⟩)
    · rintro ⟨N', hN', h⟩ n hmem
      obtain rfl := Option.some.inj hN'
      obtain ⟨hpos, hn⟩ := List.mem_range'_1.mp hmem
      rw [isSome_runCrash hN hpos (by omega)]
      exact h n hpos (by omega)

theorem getElem_of_mapM {α β : Type} {f : α → Option β} : ∀ {l : List α} {xs : List β},
    l.mapM f = some xs → xs.length = l.length ∧
      ∀ i (hl : i < l.length) (hx : i < xs.length), f l[i] = some xs[i] := by
  intro l
  induction l with
  | nil =>
    rintro xs h
    obtain rfl := Option.some.inj h
    exact ⟨rfl, fun i hl => absurd hl (Nat.not_lt_zero i)⟩
  | cons a l ih =>
    intro xs h
    rw [List.mapM_cons] at h
    obtain ⟨y, hy, h⟩ := Option.bind_eq_some_iff.mp h
    obtain ⟨ys, hys, h⟩ := Option.bind_eq_some_iff.mp h
    obtain rfl := Option.some.inj h
    obtain ⟨hlen, hget⟩ := ih hys
    refine ⟨congrArg (· + 1) hlen, fun i hl hx => ?_⟩
    cases i with
    | zero => exact hy
    | succ i => exact hget i (Nat.lt_of_succ_lt_succ hl) (Nat.lt_of_succ_lt_succ hx)

/-- **A crash sweep is exhaustive.**  It verifies one image for every storage operation of
the body, in their order; each is what a power loss leaves at a cut of the run behind that
operation, and what any cut behind an operation leaves is among them. -/
theorem crashSweep_exhaustive {images : List SimFs} (h : crashSweep rng body m = some images) :
    images.map (fun s => s.lastReport.map CrashReport.opsBeforeCrash) =
        (List.range' 1 images.length).map some ∧
      ∀ x, x ∈ images ↔
        ∃ s m', SimFs.Stops body (.new rng) m s m' ∧ 0 < s.opCount ∧ x = s.crash := by
  obtain ⟨N, hN, h⟩ := Option.bind_eq_some_iff.mp h
  obtain ⟨hlen, hget⟩ := getElem_of_mapM h
  rw [List.length_range'] at hlen
  have hcut : ∀ i (hi : i < images.length), ∃ s m', SimFs.Stops body (.new rng) m s m' ∧
      s.opCount = 1 + i ∧ images[i] = s.crash := by
    intro i hi
    have hrun := hget i (by rw [List.length_range']; omega) hi
    rw [List.getElem_range', Nat.one_mul] at hrun
    exact stops_of_runCrash hN (by omega) (by omega) hrun
  refine ⟨?_, fun x => ⟨fun hx => ?_, ?_⟩⟩
  · refine List.ext_getElem (by simp) fun i hi _ => ?_
    rw [List.length_map] at hi
    obtain ⟨s, m', -, hcount, hs⟩ := hcut i hi
    rw [List.getElem_map, hs, SimFs.lastReport_crash, hcount, List.getElem_map,
      List.getElem_range', Nat.one_mul]
  · obtain ⟨i, hi, rfl⟩ := List.getElem_of_mem hx
    obtain ⟨s, m', hstops, hcount, hs⟩ := hcut i hi
    exact ⟨s, m', hstops, by omega, hs⟩
  · rintro ⟨s, m', hstops, hpos, rfl⟩
    obtain ⟨a, t, m'', hexec, rfl⟩ := exec_of_countOps hN
    have hle : s.opCount ≤ t.opCount :=
      Cut.count_le memSem_eq_run counted_run (SimFs.Unharmed.new rng) hstops hexec
    obtain ⟨u, m₁, hu, hcount, hs⟩ := hcut (s.opCount - 1) (by omega)
    have hsame : u = s := Cut.unique memSem_eq_run counted_run (SimFs.Unharmed.new rng) hu hstops
      (show u.opCount = s.opCount by omega)
    rw [← hsame, ← hs]
    exact List.getElem_mem ..

end Drivers

/-- A new file, its bytes and its name synced. -/
def writeThrough (p : Path) (data : Bytes) : Io Unit StorageError Unit := do
  storage (.create p)
  let _at ← storage (.append p data)
  storage (.syncFile p)
  storage (.syncDir p.dir)

/-- The sweep of four operations. -/
theorem crashSweep_exhaustive_demo : ∃ (body : Io Unit StorageError Unit) (images : List SimFs),
    crashSweep (fun _ => 0) body () = some images ∧ images.length = 4 ∧
    ∀ x, x ∈ images ↔
      ∃ s m', SimFs.Stops body (.new fun _ => 0) () s m' ∧ 0 < s.opCount ∧ x = s.crash := by
  have hrun : (crashSweep (fun _ => 0) (writeThrough ⟨[], .manifest⟩ [0]) ()).map List.length =
      some 4 := by decide +kernel
  obtain ⟨images, hsweep, hlen⟩ := Option.map_eq_some_iff.mp hrun
  exact ⟨_, images, hsweep, hlen, (crashSweep_exhaustive hsweep).2⟩

end AccretionDb
