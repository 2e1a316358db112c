import AccretionDb.Storage.SimFs
import Mathlib.Logic.Function.Basic

/-! # The crash injector

Many threads call the storage through one injector, which stands in front of a simulator
that is armed to crash.  A mutating call passes `guard`, calls the simulator and goes
through `observe`, which looks for a crash report and then halts the process; between any
two of these the other threads move.

So there are two gaps.  A thread may be past `guard` when the call of another one fires
the crash, and it may pass `guard` when the crash has fired and nobody has halted the
process yet.  Its call then reaches the image that the crash left.  Where neither happens,
the image is left alone (`injector_halts`); where threads do not overlap, neither does
(`quietAll_of_alone`).
-/

namespace AccretionDb

namespace StorageOp

/-- The calls that the injector guards. -/
def mutating : StorageOp → Bool
  | create _ | append .. | writeAt .. | syncFile _ | syncDir _ | rename .. | delete _ => true
  | StorageOp.open _ | readAt .. | list _ | len _ => false

end StorageOp

/-- Where a thread is.  `late` says that its call came to the simulator behind the crash. -/
inductive Phase
  | idle
  /-- Past `guard`. -/
  | guarded (o : StorageOp)
  /-- Behind the inner call. -/
  | called (o : StorageOp) (r : o.Resp) (late : Bool)
  /-- In `observe`, behind `last_report`. -/
  | looked (o : StorageOp) (r : o.Resp) (late seen : Bool)

namespace Phase

def isGuarded : Phase → Bool
  | guarded _ => true
  | _ => false

def late : Phase → Bool
  | called _ _ l | looked _ _ l _ => l
  | _ => false

/-- The thread will halt the process if the crash has fired. -/
def reports : Phase → Bool
  | called .. => true
  | looked _ _ _ seen => seen
  | _ => false

end Phase

/-- What a mutating call has returned. -/
structure Returned where
  op : StorageOp
  resp : op.Resp
  late : Bool

/-- The injector and its threads, with three records of what has happened: what the crash
left, the calls that reached it, and what was returned. -/
structure CrashInjector (ι : Type) where
  inner : SimFs
  halted : Bool
  phase : ι → Phase
  image : Option SimFs
  reached : List StorageOp
  returned : List Returned

/-- The moves of a thread. -/
inductive Move
  /-- A call begins: one that only reads is done, the others go through `guard`. -/
  | enter (o : StorageOp)
  | call
  | look
  | store

namespace CrashInjector

variable {ι : Type}

def new (inner : SimFs) : CrashInjector ι := ⟨inner, false, fun _ => .idle, none, [], []⟩

/-- The armed crash has fired. -/
def Crashed (w : CrashInjector ι) : Prop := w.inner.lastReport.isSome = true

/-- Reject a mutating call if the process is halted. -/
def guard (w : CrashInjector ι) (o : StorageOp) : Except StorageError Unit :=
  if w.halted then
    .error (.io o.target "simulated power loss: process halted after crash")
  else .ok ()

variable [DecidableEq ι]

def setPhase (w : CrashInjector ι) (t : ι) (p : Phase) : CrashInjector ι :=
  { w with phase := Function.update w.phase t p }

/-- The inner call. -/
def forward (w : CrashInjector ι) (t : ι) (o : StorageOp) : CrashInjector ι :=
  let (r, inner) := SimFs.run o w.inner
  let late := w.inner.lastReport.isSome
  { w with
    inner
    phase := Function.update w.phase t (.called o r late)
    image := if !late && inner.lastReport.isSome then some inner else w.image
    reached := if late then w.reached ++ [o] else w.reached }

/-- One move of a thread, where it can make it. -/
def step (t : ι) (m : Move) (w : CrashInjector ι) : Option (CrashInjector ι) :=
  match m, w.phase t with
  | .enter o, .idle =>
    if o.mutating then
      match w.guard o with
      | .ok () => some (w.setPhase t (.guarded o))
      | .error e => some { w with returned := w.returned ++ [⟨o, .error e, false⟩] }
    else some { w with inner := (SimFs.run o w.inner).2 }
  | .call, .guarded o => some (w.forward t o)
  | .look, .called o r late => some (w.setPhase t (.looked o r late w.inner.lastReport.isSome))
  | .store, .looked o r late seen =>
    some { w.setPhase t .idle with
      halted := w.halted || seen
      returned := w.returned ++ [⟨o, r, late⟩] }
  | _, _ => none

def play : List (ι × Move) → CrashInjector ι → Option (CrashInjector ι)
  | [], w => some w
  | (t, m) :: ms, w => (w.step t m).bind (play ms)

/-- **The process is halted**: no mutating call has come to the image that the crash left,
so it is there as it was, and no call that would have returned `Ok`. -/
structure Halts (w : CrashInjector ι) : Prop where
  reached : w.reached = []
  image : ∀ image, w.image = some image → w.inner = image
  returned : ∀ x ∈ w.returned, x.late = true → ∃ e, x.resp = .error e

/-- A move that does not use a gap: nobody passes `guard` behind the crash, and nobody else
is past it when the crash fires. -/
def Quiet (t : ι) (m : Move) (w : CrashInjector ι) : Prop :=
  match m with
  | .enter o => o.mutating = true → w.Crashed → w.halted = true
  | .call => ∀ o, w.phase t = .guarded o → ¬ w.Crashed → (w.forward t o).Crashed →
    ∀ u, u ≠ t → (w.phase u).isGuarded = false
  | _ => True

/-- All moves are. -/
def QuietAll : List (ι × Move) → CrashInjector ι → Prop
  | [], _ => True
  | (t, m) :: ms, w => ∀ w', w.step t m = some w' → Quiet t m w ∧ QuietAll ms w'

/-! ### What a move does -/

/-- The moves one by one. -/
inductive Moves (t : ι) (w : CrashInjector ι) : Move → CrashInjector ι → Prop
  | read {o : StorageOp} (hidle : w.phase t = .idle) (hread : o.mutating = false) :
    Moves t w (.enter o) w
  | reject {o : StorageOp} {e : StorageError} (hidle : w.phase t = .idle)
    (hmut : o.mutating = true) (hhalt : w.halted = true) :
    Moves t w (.enter o) { w with returned := w.returned ++ [⟨o, .error e, false⟩] }
  | pass {o : StorageOp} (hidle : w.phase t = .idle) (hmut : o.mutating = true)
    (hrun : w.halted = false) : Moves t w (.enter o) (w.setPhase t (.guarded o))
  | call {o : StorageOp} (hguard : w.phase t = .guarded o) : Moves t w .call (w.forward t o)
  | look {o : StorageOp} {r : o.Resp} {late : Bool} (hcall : w.phase t = .called o r late) :
    Moves t w .look (w.setPhase t (.looked o r late w.inner.lastReport.isSome))
  | store {o : StorageOp} {r : o.Resp} {late seen : Bool} (hlook : w.phase t = .looked o r late seen) :
    Moves t w .store { w.setPhase t .idle with
      halted := w.halted || seen
      returned := w.returned ++ [⟨o, r, late⟩] }

omit [DecidableEq ι] in
/-- A call that only reads leaves the simulator as it is. -/
theorem run_of_not_mutating {o : StorageOp} (h : o.mutating = false) (s : SimFs) :
    (SimFs.run o s).2 = s := by
  cases o with
  | «open» p =>
    rw [SimFs.run, SimFs.open]
    split <;> rfl
  | readAt p offset len =>
    rw [SimFs.run, SimFs.readAt]
    split
    · rfl
    · dsimp only
      split <;> rfl
  | list d => rfl
  | len p =>
    rw [SimFs.run, SimFs.len]
    split <;> rfl
  | _ => cases h

theorem moves_of_step {t : ι} {m : Move} {w w' : CrashInjector ι} (h : w.step t m = some w') :
    Moves t w m w' := by
  cases hp : w.phase t with
  | idle =>
    cases m with
    | enter o =>
      simp only [step, hp] at h
      by_cases hmut : o.mutating = true
      · rw [if_pos hmut, guard] at h
        by_cases hhalt : w.halted = true
        · rw [if_pos hhalt] at h
          cases h
          exact .reject hp hmut hhalt
        · rw [if_neg hhalt] at h
          cases h
          exact .pass hp hmut (eq_false_of_ne_true hhalt)
      · rw [Bool.not_eq_true] at hmut
        rw [hmut, if_neg Bool.false_ne_true, run_of_not_mutating hmut] at h
        cases h
        exact .read hp hmut
    | _ =>
      simp only [step, hp] at h
      cases h
  | guarded o =>
    cases m with
    | call =>
      simp only [step, hp] at h
      cases h
      exact .call hp
    | _ =>
      simp only [step, hp] at h
      cases h
  | called o r late =>
    cases m with
    | look =>
      simp only [step, hp] at h
      cases h
      exact .look hp
    | _ =>
      simp only [step, hp] at h
      cases h
  | looked o r late seen =>
    cases m with
    | store =>
      simp only [step, hp] at h
      cases h
      exact .store hp
    | _ =>
      simp only [step, hp] at h
      cases h

/-! ### Quiet runs -/

/-- Nobody is past `guard` behind the crash, and nothing has come to the image it left. -/
structure Inv (w : CrashInjector ι) : Prop where
  guarded : w.Crashed → ∀ t, (w.phase t).isGuarded = false
  pending : ∀ t, (w.phase t).late = false
  reached : w.reached = []
  image : ∀ image, w.image = some image → w.Crashed ∧ w.inner = image
  returned : ∀ x ∈ w.returned, x.late = false

omit [DecidableEq ι] in
theorem Inv.halts {w : CrashInjector ι} (h : Inv w) : Halts w where
  reached := h.reached
  image i hi := (h.image i hi).2
  returned x hx hlate := by
    rw [h.returned x hx] at hlate
    cases hlate

omit [DecidableEq ι] in
theorem inv_new {s : SimFs} (h : s.lastReport = none) : Inv (new s : CrashInjector ι) where
  guarded hc := by
    rw [Crashed, new, h] at hc
    cases hc
  pending _ := rfl
  reached := rfl
  image _ hi := by cases hi
  returned x hx := absurd hx List.not_mem_nil

omit [DecidableEq ι] in
/-- One more result of a call that was not late. -/
theorem Inv.returns {w : CrashInjector ι} (h : Inv w) {o : StorageOp} {r : o.Resp} {late : Bool}
    (hlate : late = false) : ∀ x ∈ w.returned ++ [⟨o, r, late⟩], x.late = false := by
  intro x hx
  rcases List.mem_append.mp hx with hx | hx
  · exact h.returned x hx
  · rw [List.mem_singleton.mp hx]
    exact hlate

/-- What holds of a new phase and of all others. -/
theorem forall_update {f : ι → Phase} {t : ι} {p : Phase} (P : Phase → Prop) (h : P p)
    (hf : ∀ u, u ≠ t → P (f u)) : ∀ u, P (Function.update f t p u) :=
  (Function.forall_update_iff f fun _ q => P q).mpr ⟨h, hf⟩

/-- A thread goes on. -/
theorem Inv.setPhase {w : CrashInjector ι} (h : Inv w) (t : ι) {p : Phase}
    (hguard : w.Crashed → p.isGuarded = false) (hlate : p.late = false) :
    Inv (w.setPhase t p) where
  guarded hc := forall_update (·.isGuarded = false) (hguard hc) fun u _ => h.guarded hc u
  pending := forall_update (·.late = false) hlate fun u _ => h.pending u
  reached := h.reached
  image := h.image
  returned := h.returned

theorem image_forward (w : CrashInjector ι) (t : ι) (o : StorageOp) :
    (w.forward t o).image =
      if (!w.inner.lastReport.isSome && (SimFs.run o w.inner).2.lastReport.isSome) = true then
        some (SimFs.run o w.inner).2
      else w.image := rfl

theorem Inv.forward {t : ι} {o : StorageOp} {w : CrashInjector ι} (h : Inv w)
    (hguard : w.phase t = .guarded o) (hq : Quiet t .call w) : Inv (w.forward t o) := by
  -- the crash has not fired, for this thread is past its guard
  have hno : ¬ w.Crashed := fun hc => by
    have := h.guarded hc t
    rw [hguard] at this
    cases this
  have hlate : w.inner.lastReport.isSome = false := eq_false_of_ne_true hno
  have himage : w.image = none := by
    cases hi : w.image with
    | none => rfl
    | some i => exact absurd (h.image i hi).1 hno
  refine ⟨fun hc => ?_, ?_, ?_, fun i hi => ?_, h.returned⟩
  · exact forall_update (·.isGuarded = false) rfl (hq o hguard hno hc)
  · exact forall_update (·.late = false) hlate fun u _ => h.pending u
  · show (if _ then _ else _) = _
    rw [hlate, if_neg Bool.false_ne_true]
    exact h.reached
  · rw [image_forward, hlate, Bool.not_false, Bool.true_and, himage] at hi
    by_cases hc : (SimFs.run o w.inner).2.lastReport.isSome = true
    · rw [if_pos hc] at hi
      exact ⟨hc, Option.some.inj hi⟩
    · rw [if_neg hc] at hi
      cases hi

/-- **A quiet move keeps the process halted.** -/
theorem Inv.step {t : ι} {m : Move} {w w' : CrashInjector ι} (h : Inv w) (hq : Quiet t m w)
    (hs : w.step t m = some w') : Inv w' := by
  cases moves_of_step hs with
  | read hidle hread => exact h
  | reject hidle hmut hhalt => exact ⟨h.guarded, h.pending, h.reached, h.image, h.returns rfl⟩
  | pass hidle hmut hrun =>
    refine h.setPhase t (fun hc => ?_) rfl
    rw [hq hmut hc] at hrun
    cases hrun
  | call hguard => exact h.forward hguard hq
  | look hcall =>
    have hlate := h.pending t
    rw [hcall] at hlate
    exact h.setPhase t (fun _ => rfl) hlate
  | store hlook =>
    have hlate := h.pending t
    rw [hlook] at hlate
    have hidle := h.setPhase t (p := .idle) (fun _ => rfl) rfl
    exact ⟨hidle.guarded, hidle.pending, hidle.reached, hidle.image, h.returns hlate⟩

theorem Inv.play {w' : CrashInjector ι} : ∀ {ms : List (ι × Move)} {w : CrashInjector ι},
    Inv w → QuietAll ms w → w.play ms = some w' → Inv w' := by
  intro ms
  induction ms with
  | nil =>
    intro w h _ hp
    cases hp
    exact h
  | cons m ms ih =>
    intro w h hq hp
    obtain ⟨w₁, hs, hp⟩ := Option.bind_eq_some_iff.mp hp
    exact ih (h.step (hq w₁ hs).1 hs) (hq w₁ hs).2 hp

/-- A call that comes to the simulator behind the crash. -/
theorem not_halts_forward (t : ι) (o : StorageOp) {w : CrashInjector ι} (hc : w.Crashed) :
    ¬ Halts (w.forward t o) := by
  intro h
  have hreached : (w.forward t o).reached = w.reached ++ [o] := if_pos hc
  have hnil := h.reached
  rw [hreached] at hnil
  exact List.append_ne_nil_of_right_ne_nil _ (List.cons_ne_nil _ _) hnil

/-- A move that is not quiet: the next move of some thread comes to the image that the
crash left. -/
theorem leak_of_not_quiet {t : ι} {m : Move} {w w' : CrashInjector ι} (hq : ¬ Quiet t m w)
    (hs : w.step t m = some w') : ∃ u w'', w'.step u .call = some w'' ∧ ¬ Halts w'' := by
  cases moves_of_step hs with
  | read hidle hread =>
    refine absurd (fun hmut => ?_) hq
    rw [hread] at hmut
    cases hmut
  | reject hidle hmut hhalt => exact absurd (fun _ _ => hhalt) hq
  | @pass o hidle hmut hrun =>
    -- the thread itself calls
    have hc : w.Crashed := by
      by_contra hc
      exact hq fun _ hc' => absurd hc' hc
    have hp : (w.setPhase t (.guarded o)).phase t = .guarded o := Function.update_self ..
    refine ⟨t, _, ?_, not_halts_forward t o (w := w.setPhase t (.guarded o)) hc⟩
    simp only [step, hp]
  | @call o hguard =>
    -- another thread was past its guard
    by_contra hno
    refine hq fun o' hguard' hc hfire u hu => ?_
    cases hp : w.phase u with
    | guarded o₂ =>
      have hp' : (w.forward t o).phase u = .guarded o₂ := (Function.update_of_ne hu ..).trans hp
      rw [hguard] at hguard'
      cases hguard'
      refine absurd ⟨u, _, ?_, not_halts_forward u o₂ hfire⟩ hno
      simp only [step, hp']
    | _ => rfl
  | look hcall => exact absurd trivial hq
  | store hlook => exact absurd trivial hq

/-- **When the injector halts the process**: in a run of quiet moves the image that the
crash left is handed on as it was, and at the first move that is not quiet a thread can
write to it. -/
theorem injector_halts {s : SimFs} {ms : List (ι × Move)} {w : CrashInjector ι}
    (hs : s.lastReport = none) (hq : QuietAll ms (new s)) (hp : (new s).play ms = some w) :
    Halts w ∧ ∀ t m w', ¬ Quiet t m w → w.step t m = some w' →
      ∃ u w'', w'.step u .call = some w'' ∧ ¬ Halts w'' :=
  ⟨((inv_new hs).play hq hp).halts, fun _ _ _ => leak_of_not_quiet⟩

/-! ### Threads that do not overlap -/

/-- A crash that has fired is known, or there is a thread that will make it known. -/
def Latched (w : CrashInjector ι) : Prop :=
  w.Crashed → w.halted = true ∨ ∃ t, (w.phase t).reports = true

theorem reports_self (f : ι → Phase) (t : ι) {p : Phase} (h : p.reports = true) :
    (Function.update f t p t).reports = true := by
  rwa [Function.update_self]

theorem Latched.step {t : ι} {m : Move} {w w' : CrashInjector ι} (h : Latched w)
    (hs : w.step t m = some w') : Latched w' := by
  -- a thread that reports goes on to report, unless it is the one that moves
  have hother : ∀ {p : Phase}, (w.phase t).reports = false → w.Crashed →
      w.halted = true ∨ ∃ u, (Function.update w.phase t p u).reports = true := by
    intro p ht hc
    rcases h hc with hhalt | ⟨u, hu⟩
    · exact .inl hhalt
    · refine .inr ⟨u, ?_⟩
      rw [Function.update_of_ne fun hut => by rw [hut, ht] at hu; cases hu]
      exact hu
  cases moves_of_step hs with
  | read hidle hread => exact h
  | reject hidle hmut hhalt => exact h
  | pass hidle hmut hrun => exact hother (by rw [hidle]; rfl)
  | @call o hguard =>
    exact fun _ => .inr ⟨t, reports_self w.phase t (p := .called o _ _) rfl⟩
  | @look o r late hcall =>
    exact fun hc => .inr ⟨t, reports_self w.phase t (p := .looked o r late _) hc⟩
  | @store o r late seen hlook =>
    intro hc
    cases seen with
    | true => exact .inl (Bool.or_true _)
    | false =>
      rcases hother (p := .idle) (by rw [hlook]; rfl) hc with hhalt | hu
      · exact .inl (by rw [hhalt]; rfl)
      · exact .inr hu

/-- At every move the other threads are idle. -/
def AloneAll : List (ι × Move) → CrashInjector ι → Prop
  | [], _ => True
  | (t, m) :: ms, w => ∀ w', w.step t m = some w' →
    (∀ u, u ≠ t → w.phase u = .idle) ∧ AloneAll ms w'

/-- **Where calls do not overlap, all moves are quiet.** -/
theorem quietAll_of_alone : ∀ {ms : List (ι × Move)} {w : CrashInjector ι},
    Latched w → AloneAll ms w → QuietAll ms w := by
  intro ms
  induction ms with
  | nil => exact fun _ _ => trivial
  | cons move ms ih =>
    obtain ⟨t, m⟩ := move
    intro w h ha w' hs
    obtain ⟨halone, hrest⟩ := ha w' hs
    refine ⟨?_, ih (h.step hs) hrest⟩
    cases moves_of_step hs with
    | read hidle hread =>
      intro hmut
      rw [hread] at hmut
      cases hmut
    | reject hidle hmut hhalt => exact fun _ _ => hhalt
    | pass hidle hmut hrun =>
      intro _ hc
      rcases h hc with hhalt | ⟨u, hu⟩
      · exact hhalt
      · by_cases hut : u = t
        · rw [hut, hidle] at hu
          cases hu
        · rw [halone u hut] at hu
          cases hu
    | call hguard =>
      intro o _ _ _ u hu
      rw [halone u hu]
      rfl
    | look hcall => exact trivial
    | store hlook => exact trivial

omit [DecidableEq ι] in
theorem latched_new {s : SimFs} (h : s.lastReport = none) : Latched (new s : CrashInjector ι) := by
  intro hc
  rw [Crashed, new, h] at hc
  cases hc

/-! ### Two threads, and a crash at the first call -/

/-- The second thread begins its call when the first one has halted the process. -/
theorem injector_halts_demo :
    let s := (SimFs.new fun _ => 0).armCrashAfter 1
    let ms : List (Bool × Move) := [(false, .enter (.create ⟨[], .wal 1⟩)), (false, .call),
      (false, .look), (false, .store), (true, .enter (.create ⟨[], .wal 2⟩))]
    ∃ w, (new s).play ms = some w ∧ w.returned.map Returned.op =
      [.create ⟨[], .wal 1⟩, .create ⟨[], .wal 2⟩] ∧ Halts w := by
  intro s ms
  have halone : AloneAll ms (new s) := by
    have hidle : ∀ {f : Bool → Phase} {p : Phase}, f true = .idle →
        ∀ u, u ≠ false → Function.update f false p u = .idle := by
      intro f p hf u hu
      rw [Bool.eq_true_of_not_eq_false hu]
      exact hf
    refine fun w₁ h₁ => ⟨fun _ _ => rfl, fun w₂ h₂ => ?_⟩
    cases h₁
    refine ⟨hidle rfl, fun w₃ h₃ => ?_⟩
    cases h₂
    refine ⟨hidle rfl, fun w₄ h₄ => ?_⟩
    cases h₃
    refine ⟨hidle rfl, fun w₅ h₅ => ?_⟩
    cases h₄
    refine ⟨fun u hu => ?_, trivial⟩
    rw [Bool.eq_false_of_not_eq_true hu]
    rfl
  have hplay : ∃ w, (new s).play ms = some w := ⟨_, rfl⟩
  obtain ⟨w, hw⟩ := hplay
  refine ⟨w, hw, ?_, (injector_halts rfl (quietAll_of_alone (latched_new rfl) halone) hw).1⟩
  cases hw
  rfl

/-- Both threads pass `guard`, and the call of the second one comes behind the crash: it
returns `Ok`, and its file is in an image that was left without it. -/
theorem injector_leaks :
    let s := (SimFs.new fun _ => 0).armCrashAfter 1
    let q : Path := ⟨[], .wal 2⟩
    let ms : List (Bool × Move) := [(false, .enter (.create ⟨[], .wal 1⟩)),
      (true, .enter (.create q)), (false, .call), (true, .call), (true, .look), (true, .store)]
    ∃ w, (new s).play ms = some w ∧ w.image.map (fun i => (i.files q).liveInode) = some none ∧
      (w.inner.files q).liveInode.isSome = true ∧ w.reached = [.create q] ∧
      w.returned = [⟨.create q, .ok (), true⟩] ∧ ¬ Halts w := by
  intro s q ms
  refine ⟨_, rfl, rfl, rfl, rfl, rfl, fun h => ?_⟩
  have hreached := h.reached
  cases hreached

end CrashInjector

end AccretionDb
