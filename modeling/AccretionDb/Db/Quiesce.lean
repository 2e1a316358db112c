import Mathlib.Data.Finset.Card
import Mathlib.Tactic.Ring
import Mathlib.Algebra.Order.BigOperators.Group.List
import Mathlib.Logic.Function.Basic
import Mathlib.Logic.Relation

/-! # Writers and flushes

Any number of calls of `Db::write` and `Db::flush`, each at its own place.  A section
under the write lock is one step, from taking the lock to the next point that gives
it up; only `flush_quiesced` keeps it over many steps.  The condvar `quiesced` has two
kinds of waiters: writers wait until no flush is pending, flushes wait until no write
is in flight.  `Inv` says that nobody waits for what already holds and that a pending
flush has a call that will clear it, and so some call can always move.
-/

namespace AccretionDb.Db

/-- What the write lock guards. -/
structure WriteState where
  nextSeq : Nat
  inFlight : Nat
  flushPending : Bool

/-- Where a call of `write` or `flush` stands. -/
inductive Call
  | idle
  /-- `write`, phase 1, at the lock: called, or notified in its wait. -/
  | claiming
  /-- `write`, in `quiesced.wait`, not notified. -/
  | claimParked
  /-- `write`, phase 2, so many steps before `Wal::append` returns. -/
  | appending (seq rest : Nat)
  /-- `write`, before `insert_if_newer`. -/
  | applying (seq : Nat)
  /-- `write`, at the lock of the error exit. -/
  | failing (seq : Nat)
  /-- `write`, phase 3, at the lock. -/
  | finishing (seq : Nat)
  /-- `flush`, at the lock. -/
  | entering
  /-- `flush_locked`, notified in its wait, at the lock. -/
  | quiescing
  /-- `flush_locked`, in `quiesced.wait`, not notified. -/
  | quiesceParked
  /-- `flush_quiesced`, with the lock, so many steps before it returns. -/
  | flushing (rest : Nat)
  | returned (ok : Bool)

namespace Call

/-- What `notify_all` does to a call. -/
def wake : Call → Call
  | claimParked => claiming
  | quiesceParked => quiescing
  | c => c

/-- The call has a sequence number and is counted in `in_flight`. -/
def InFlight : Call → Prop
  | appending .. | applying _ | failing _ | finishing _ => True
  | _ => False

/-- The call has set `flush_pending` and will clear it. -/
def Flushes : Call → Prop
  | quiescing | quiesceParked | flushing _ => True
  | _ => False

def Unfinished : Call → Prop
  | idle | returned _ => False
  | _ => True

@[simp] theorem inFlight_wake (c : Call) : c.wake.InFlight ↔ c.InFlight := by
  cases c <;> exact Iff.rfl

@[simp] theorem flushes_wake (c : Call) : c.wake.Flushes ↔ c.Flushes := by
  cases c <;> exact Iff.rfl

theorem wake_ne_claimParked (c : Call) : c.wake ≠ claimParked := by
  cases c <;> exact nofun

theorem wake_ne_quiesceParked (c : Call) : c.wake ≠ quiesceParked := by
  cases c <;> exact nofun

theorem wake_eq_flushing {c : Call} {n : Nat} : c.wake = flushing n ↔ c = flushing n := by
  cases c with
  | claimParked => exact ⟨nofun, nofun⟩
  | quiesceParked => exact ⟨nofun, nofun⟩
  | _ => exact Iff.rfl

end Call

/-- The write path and its callers; `holder` is the call that keeps the lock between
two steps. -/
structure Machine where
  write : WriteState
  holder : Option Nat
  calls : Nat → Call

namespace Machine

open Call

/-- A database just opened. -/
def start (nextSeq : Nat) : Machine := ⟨⟨nextSeq, 0, false⟩, none, fun _ => .idle⟩

def setCall (m : Machine) (i : Nat) (c : Call) : Machine :=
  { m with calls := Function.update m.calls i c }

/-- Phase 1 of `write`; the sequence number wraps as a release build's does. -/
def claim (m : Machine) (i rest : Nat) : Machine :=
  { m with
    write := ⟨(m.write.nextSeq + 1) % 2 ^ 64, m.write.inFlight + 1, m.write.flushPending⟩
    calls := Function.update m.calls i (.appending m.write.nextSeq rest) }

/-- Clear the in-flight mark and wake every waiter. -/
def unmark (m : Machine) : Machine :=
  { m with
    write := { m.write with inFlight := m.write.inFlight - 1 }
    calls := fun j => (m.calls j).wake }

/-- The loop of `flush_locked`: go on with the lock, or wait. -/
def quiesce (m : Machine) (i rest : Nat) : Machine :=
  if m.write.inFlight > 0 then m.setCall i .quiesceParked
  else { m with holder := some i, calls := Function.update m.calls i (.flushing rest) }

def flushLocked (m : Machine) (i rest : Nat) : Machine :=
  quiesce { m with write := { m.write with flushPending := true } } i rest

/-- The end of `flush_locked`. -/
def flushed (m : Machine) (i : Nat) (ok : Bool) : Machine :=
  { m with
    write := { m.write with flushPending := false }
    holder := none
    calls := Function.update (fun j => (m.calls j).wake) i (.returned ok) }

/-- One move of a call that is under way. -/
inductive Move (i : Nat) : Machine → Machine → Prop
  | park {m : Machine} (h : m.calls i = .claiming) (hl : m.holder = none)
      (hp : m.write.flushPending = true) : Move i m (m.setCall i .claimParked)
  | claim {m : Machine} (rest : Nat) (h : m.calls i = .claiming) (hl : m.holder = none)
      (hp : m.write.flushPending = false) : Move i m (m.claim i rest)
  | append {m : Machine} {seq rest : Nat} (h : m.calls i = .appending seq (rest + 1)) :
      Move i m (m.setCall i (.appending seq rest))
  | appendErr {m : Machine} {seq : Nat} (h : m.calls i = .appending seq 0) :
      Move i m (m.setCall i (.failing seq))
  | appendOk {m : Machine} {seq : Nat} (h : m.calls i = .appending seq 0) :
      Move i m (m.setCall i (.applying seq))
  | apply {m : Machine} {seq : Nat} (h : m.calls i = .applying seq) :
      Move i m (m.setCall i (.finishing seq))
  | fail {m : Machine} {seq : Nat} (h : m.calls i = .failing seq) (hl : m.holder = none) :
      Move i m (m.unmark.setCall i (.returned false))
  | finish {m : Machine} {seq : Nat} (h : m.calls i = .finishing seq) (hl : m.holder = none) :
      Move i m (m.unmark.setCall i (.returned true))
  | finishFull {m : Machine} {seq : Nat} (rest : Nat) (h : m.calls i = .finishing seq)
      (hl : m.holder = none) : Move i m (m.unmark.flushLocked i rest)
  | enter {m : Machine} (rest : Nat) (h : m.calls i = .entering) (hl : m.holder = none) :
      Move i m (m.flushLocked i rest)
  | quiesce {m : Machine} (rest : Nat) (h : m.calls i = .quiescing) (hl : m.holder = none) :
      Move i m (m.quiesce i rest)
  | flush {m : Machine} {rest : Nat} (h : m.calls i = .flushing (rest + 1)) :
      Move i m (m.setCall i (.flushing rest))
  | flushed {m : Machine} (ok : Bool) (h : m.calls i = .flushing 0) :
      Move i m (m.flushed i ok)

/-- A move, a new call, or a wakeup that nobody asked for. -/
inductive Step : Machine → Machine → Prop
  | move {m m' : Machine} {i : Nat} (h : Move i m m') : Step m m'
  | callWrite {m : Machine} {i : Nat} (h : ¬ (m.calls i).Unfinished) :
      Step m (m.setCall i .claiming)
  | callFlush {m : Machine} {i : Nat} (h : ¬ (m.calls i).Unfinished) :
      Step m (m.setCall i .entering)
  | wakeWriter {m : Machine} {i : Nat} (h : m.calls i = .claimParked) :
      Step m (m.setCall i .claiming)
  | wakeFlush {m : Machine} {i : Nat} (h : m.calls i = .quiesceParked) :
      Step m (m.setCall i .quiescing)

/-! ### The invariant -/

/-- The number of calls that are counted in `in_flight`. -/
def Counts (calls : Nat → Call) (n : Nat) : Prop :=
  ∃ s : Finset Nat, (∀ i, i ∈ s ↔ (calls i).InFlight) ∧ n = s.card

namespace Counts

variable {calls : Nat → Call} {n i : Nat} {c : Call}

theorem congr {calls' : Nat → Call} (h : Counts calls n)
    (hc : ∀ j, (calls' j).InFlight ↔ (calls j).InFlight) : Counts calls' n := by
  obtain ⟨s, hs, hn⟩ := h
  exact ⟨s, fun j => (hs j).trans (hc j).symm, hn⟩

theorem wake (h : Counts calls n) : Counts (fun j => (calls j).wake) n :=
  h.congr fun j => inFlight_wake (calls j)

theorem update (h : Counts calls n) (hc : c.InFlight ↔ (calls i).InFlight) :
    Counts (Function.update calls i c) n := by
  refine h.congr fun j => ?_
  by_cases hj : j = i
  · subst hj
    rw [Function.update_self]
    exact hc
  · rw [Function.update_of_ne hj]

theorem add (h : Counts calls n) (hi : ¬ (calls i).InFlight) (hc : c.InFlight) :
    Counts (Function.update calls i c) (n + 1) := by
  obtain ⟨s, hs, rfl⟩ := h
  have hnot : i ∉ s := fun hm => hi ((hs i).mp hm)
  refine ⟨insert i s, fun j => ?_, (Finset.card_insert_of_notMem hnot).symm⟩
  by_cases hj : j = i
  · subst hj
    rw [Function.update_self]
    exact ⟨fun _ => hc, fun _ => Finset.mem_insert_self _ _⟩
  · rw [Function.update_of_ne hj, Finset.mem_insert, or_iff_right hj, hs]

theorem remove (h : Counts calls n) (hi : (calls i).InFlight) (hc : ¬ c.InFlight) :
    Counts (Function.update calls i c) (n - 1) := by
  obtain ⟨s, hs, rfl⟩ := h
  refine ⟨s.erase i, fun j => ?_, (Finset.card_erase_of_mem ((hs i).mpr hi)).symm⟩
  by_cases hj : j = i
  · subst hj
    rw [Function.update_self, Finset.mem_erase]
    exact ⟨fun hm => absurd rfl hm.1, fun hin => absurd hin hc⟩
  · rw [Function.update_of_ne hj, Finset.mem_erase, and_iff_right hj, hs]

theorem pos (h : Counts calls n) (hi : (calls i).InFlight) : 0 < n := by
  obtain ⟨s, hs, rfl⟩ := h
  exact Finset.card_pos.mpr ⟨i, (hs i).mpr hi⟩

theorem exists_inFlight (h : Counts calls n) (hn : 0 < n) : ∃ i, (calls i).InFlight := by
  obtain ⟨s, hs, rfl⟩ := h
  obtain ⟨i, hi⟩ := Finset.card_pos.mp hn
  exact ⟨i, (hs i).mp hi⟩

end Counts

structure Inv (m : Machine) : Prop where
  counts : Counts m.calls m.write.inFlight
  holds : ∀ i n, m.calls i = .flushing n → m.holder = some i
  flushes : ∀ i, m.holder = some i → ∃ n, m.calls i = .flushing n
  quiet : ∀ i, m.holder = some i → m.write.inFlight = 0
  claimParked : ∀ i, m.calls i = .claimParked → m.write.flushPending = true
  quiesceParked : ∀ i, m.calls i = .quiesceParked → 0 < m.write.inFlight
  pending : m.write.flushPending = true → ∃ i, (m.calls i).Flushes

theorem Inv.start (nextSeq : Nat) : Inv (start nextSeq) where
  counts := ⟨∅, fun i => ⟨fun h => absurd h (Finset.notMem_empty i), fun h => h.elim⟩, rfl⟩
  holds i n h := by cases h
  flushes i h := by cases h
  quiet i h := by cases h
  claimParked i h := by cases h
  quiesceParked i h := by cases h
  pending h := by cases h

namespace Inv

variable {m : Machine} {i : Nat} {c : Call}

/-- With no call holding the lock, none is in `flush_quiesced`. -/
theorem not_flushing (h : Inv m) (hl : m.holder = none) (j n : Nat) :
    m.calls j ≠ .flushing n := by
  intro hj
  have hh := h.holds j n hj
  rw [hl] at hh
  cases hh

/-- A call moves on, and nothing else changes. -/
theorem setCall (h : Inv m) (hin : c.InFlight ↔ (m.calls i).InFlight)
    (hfl : (∃ n, c = .flushing n) ↔ ∃ n, m.calls i = .flushing n)
    (hcp : c = .claimParked → m.write.flushPending = true)
    (hqp : c = .quiesceParked → 0 < m.write.inFlight)
    (hf : (m.calls i).Flushes → c.Flushes) : Inv (m.setCall i c) where
  counts := h.counts.update hin
  holds j n hj := by
    by_cases hji : j = i
    · subst hji
      change Function.update m.calls j c j = _ at hj
      rw [Function.update_self] at hj
      obtain ⟨k, hk⟩ := hfl.mp ⟨n, hj⟩
      exact h.holds j k hk
    · change Function.update m.calls i c j = _ at hj
      rw [Function.update_of_ne hji] at hj
      exact h.holds j n hj
  flushes j hj := by
    obtain ⟨n, hn⟩ := h.flushes j hj
    by_cases hji : j = i
    · subst hji
      obtain ⟨k, hk⟩ := hfl.mpr ⟨n, hn⟩
      exact ⟨k, (Function.update_self ..).trans hk⟩
    · exact ⟨n, (Function.update_of_ne hji ..).trans hn⟩
  quiet := h.quiet
  claimParked j hj := by
    change Function.update m.calls i c j = _ at hj
    by_cases hji : j = i
    · rw [hji, Function.update_self] at hj
      exact hcp hj
    · rw [Function.update_of_ne hji] at hj
      exact h.claimParked j hj
  quiesceParked j hj := by
    change Function.update m.calls i c j = _ at hj
    by_cases hji : j = i
    · rw [hji, Function.update_self] at hj
      exact hqp hj
    · rw [Function.update_of_ne hji] at hj
      exact h.quiesceParked j hj
  pending hp := by
    obtain ⟨j, hj⟩ := h.pending hp
    by_cases hji : j = i
    · subst hji
      refine ⟨j, ?_⟩
      change (Function.update m.calls j c j).Flushes
      rw [Function.update_self]
      exact hf hj
    · refine ⟨j, ?_⟩
      change (Function.update m.calls i c j).Flushes
      rw [Function.update_of_ne hji]
      exact hj

theorem claim (h : Inv m) (rest : Nat) (hi : m.calls i = .claiming) (hl : m.holder = none)
    (hp : m.write.flushPending = false) : Inv (m.claim i rest) where
  counts := h.counts.add (by rw [hi]; exact id) trivial
  holds j n hj := by
    change Function.update m.calls i _ j = _ at hj
    by_cases hji : j = i
    · rw [hji, Function.update_self] at hj
      cases hj
    · rw [Function.update_of_ne hji] at hj
      exact absurd hj (h.not_flushing hl j n)
  flushes j hj := by
    change m.holder = some j at hj
    rw [hl] at hj
    cases hj
  quiet j hj := by
    change m.holder = some j at hj
    rw [hl] at hj
    cases hj
  claimParked j hj := by
    change Function.update m.calls i _ j = _ at hj
    by_cases hji : j = i
    · rw [hji, Function.update_self] at hj
      cases hj
    · rw [Function.update_of_ne hji] at hj
      exact h.claimParked j hj
  quiesceParked _ _ := Nat.succ_pos _
  pending hp' := by
    change m.write.flushPending = true at hp'
    rw [hp] at hp'
    cases hp'

/-- A call that leaves the write path wakes all that wait. -/
theorem unmark (h : Inv m) (hi : (m.calls i).InFlight) (hl : m.holder = none) (hc : ¬ c.InFlight)
    (hfl : ∀ n, c ≠ .flushing n) (hcp : c ≠ .claimParked) (hqp : c ≠ .quiesceParked) :
    Inv (m.unmark.setCall i c) where
  counts := by
    have hw : ((m.calls i).wake).InFlight := (inFlight_wake _).mpr hi
    have hcounts : Counts (fun j => (m.calls j).wake) m.write.inFlight := h.counts.wake
    exact hcounts.remove hw hc
  holds j n hj := by
    change Function.update (fun j => (m.calls j).wake) i c j = _ at hj
    by_cases hji : j = i
    · rw [hji, Function.update_self] at hj
      exact absurd hj (hfl n)
    · rw [Function.update_of_ne hji] at hj
      exact absurd (wake_eq_flushing.mp hj) (h.not_flushing hl j n)
  flushes j hj := by
    change m.holder = some j at hj
    rw [hl] at hj
    cases hj
  quiet j hj := by
    change m.holder = some j at hj
    rw [hl] at hj
    cases hj
  claimParked j hj := by
    change Function.update (fun j => (m.calls j).wake) i c j = _ at hj
    by_cases hji : j = i
    · rw [hji, Function.update_self] at hj
      exact absurd hj hcp
    · rw [Function.update_of_ne hji] at hj
      exact absurd hj (wake_ne_claimParked _)
  quiesceParked j hj := by
    change Function.update (fun j => (m.calls j).wake) i c j = _ at hj
    by_cases hji : j = i
    · rw [hji, Function.update_self] at hj
      exact absurd hj hqp
    · rw [Function.update_of_ne hji] at hj
      exact absurd hj (wake_ne_quiesceParked _)
  pending hp := by
    obtain ⟨j, hj⟩ := h.pending hp
    have hji : j ≠ i := by
      rintro rfl
      cases hcall : m.calls j <;> rw [hcall] at hi hj
      all_goals first | exact hi.elim | exact hj.elim
    refine ⟨j, ?_⟩
    change (Function.update (fun j => (m.calls j).wake) i c j).Flushes
    rw [Function.update_of_ne hji]
    exact (flushes_wake _).mpr hj

/-- The loop of `flush_locked`, entered with the mark set or found set. -/
theorem quiesce (h : Inv m) {pending : Bool} (rest : Nat) (hi : ¬ (m.calls i).InFlight)
    (hl : m.holder = none) (hp : m.write.flushPending = true → pending = true) :
    Inv (quiesce { m with write := { m.write with flushPending := pending } } i rest) := by
  have hcount : ∀ c : Call, ¬ c.InFlight → (c.InFlight ↔ (m.calls i).InFlight) :=
    fun c hc => ⟨fun h => absurd h hc, fun h => absurd h hi⟩
  -- both branches leave the other calls where they are, and call `i` flushes
  have hflush : ∀ c : Call, c.Flushes → ∃ j, (Function.update m.calls i c j).Flushes := by
    intro c hc
    refine ⟨i, ?_⟩
    rw [Function.update_self]
    exact hc
  by_cases hpos : m.write.inFlight > 0
  · have hq : Machine.quiesce { m with write := { m.write with flushPending := pending } } i rest =
        ({ m with write := { m.write with flushPending := pending } } : Machine).setCall i
          .quiesceParked := if_pos hpos
    rw [hq]
    refine ⟨h.counts.update (hcount _ id), fun j n hj => ?_, fun j hj => ?_, fun j hj => ?_,
      fun j hj => ?_, fun j _ => hpos, fun _ => hflush _ trivial⟩
    · change Function.update m.calls i _ j = _ at hj
      by_cases hji : j = i
      · rw [hji, Function.update_self] at hj
        cases hj
      · rw [Function.update_of_ne hji] at hj
        exact absurd hj (h.not_flushing hl j n)
    · change m.holder = some j at hj
      rw [hl] at hj
      cases hj
    · change m.holder = some j at hj
      rw [hl] at hj
      cases hj
    · change Function.update m.calls i _ j = _ at hj
      by_cases hji : j = i
      · rw [hji, Function.update_self] at hj
        cases hj
      · rw [Function.update_of_ne hji] at hj
        exact hp (h.claimParked j hj)
  · have hzero : m.write.inFlight = 0 := by omega
    have hq : Machine.quiesce { m with write := { m.write with flushPending := pending } } i rest =
        { m with
          write := { m.write with flushPending := pending }
          holder := some i
          calls := Function.update m.calls i (.flushing rest) } := if_neg hpos
    rw [hq]
    refine ⟨h.counts.update (hcount _ id), fun j n hj => ?_, fun j hj => ?_, fun j _ => hzero,
      fun j hj => ?_, fun j hj => ?_, fun _ => hflush _ trivial⟩
    · change Function.update m.calls i _ j = _ at hj
      by_cases hji : j = i
      · rw [hji]
      · rw [Function.update_of_ne hji] at hj
        exact absurd hj (h.not_flushing hl j n)
    · obtain rfl := Option.some.inj hj
      exact ⟨rest, Function.update_self ..⟩
    · change Function.update m.calls i _ j = _ at hj
      by_cases hji : j = i
      · rw [hji, Function.update_self] at hj
        cases hj
      · rw [Function.update_of_ne hji] at hj
        exact hp (h.claimParked j hj)
    · change Function.update m.calls i _ j = _ at hj
      by_cases hji : j = i
      · rw [hji, Function.update_self] at hj
        cases hj
      · rw [Function.update_of_ne hji] at hj
        exact h.quiesceParked j hj

theorem flushLocked (h : Inv m) (rest : Nat) (hi : ¬ (m.calls i).InFlight)
    (hl : m.holder = none) : Inv (m.flushLocked i rest) :=
  h.quiesce rest hi hl fun _ => rfl

/-- The end of a flush wakes all that wait. -/
theorem flushed (h : Inv m) {rest : Nat} (ok : Bool) (hi : m.calls i = .flushing rest) :
    Inv (m.flushed i ok) where
  counts := by
    have hcounts : Counts (fun j => (m.calls j).wake) m.write.inFlight := h.counts.wake
    refine hcounts.update ⟨False.elim, fun hw => ?_⟩
    rw [inFlight_wake, hi] at hw
    exact hw
  holds j n hj := by
    change Function.update (fun j => (m.calls j).wake) i _ j = _ at hj
    by_cases hji : j = i
    · rw [hji, Function.update_self] at hj
      cases hj
    · rw [Function.update_of_ne hji] at hj
      have h1 := h.holds j n (wake_eq_flushing.mp hj)
      rw [h.holds i rest hi] at h1
      exact absurd (Option.some.inj h1).symm hji
  flushes j hj := by cases hj
  quiet j hj := by cases hj
  claimParked j hj := by
    change Function.update (fun j => (m.calls j).wake) i _ j = _ at hj
    by_cases hji : j = i
    · rw [hji, Function.update_self] at hj
      cases hj
    · rw [Function.update_of_ne hji] at hj
      exact absurd hj (wake_ne_claimParked _)
  quiesceParked j hj := by
    change Function.update (fun j => (m.calls j).wake) i _ j = _ at hj
    by_cases hji : j = i
    · rw [hji, Function.update_self] at hj
      cases hj
    · rw [Function.update_of_ne hji] at hj
      exact absurd hj (wake_ne_quiesceParked _)
  pending hp := by cases hp

/-- A call moves on without the lock, from a place and to a place that no field of the
invariant looks at. -/
theorem advance (h : Inv m) {c₀ : Call} (hi : m.calls i = c₀) (hin : c.InFlight ↔ c₀.InFlight)
    (hfl : ∀ n, c ≠ .flushing n) (hfl₀ : ∀ n, c₀ ≠ .flushing n) (hcp : c ≠ .claimParked)
    (hqp : c ≠ .quiesceParked) (hf : c₀.Flushes → c.Flushes) : Inv (m.setCall i c) := by
  subst hi
  exact h.setCall hin ⟨fun ⟨n, hn⟩ => absurd hn (hfl n), fun ⟨n, hn⟩ => absurd hn (hfl₀ n)⟩
    (fun hc => absurd hc hcp) (fun hc => absurd hc hqp) hf

theorem move {m' : Machine} (h : Inv m) (hs : Move i m m') : Inv m' := by
  cases hs with
  | park hi hl hp =>
    refine h.setCall ?_ ⟨nofun, fun ⟨n, hn⟩ => ?_⟩ (fun _ => hp) nofun ?_
    · rw [hi]
      exact Iff.rfl
    · rw [hi] at hn
      cases hn
    · rw [hi]
      exact id
  | claim rest hi hl hp => exact h.claim rest hi hl hp
  | append hi => exact h.advance hi Iff.rfl nofun nofun nofun nofun id
  | appendErr hi => exact h.advance hi Iff.rfl nofun nofun nofun nofun id
  | appendOk hi => exact h.advance hi Iff.rfl nofun nofun nofun nofun id
  | apply hi => exact h.advance hi Iff.rfl nofun nofun nofun nofun id
  | fail hi hl => exact h.unmark (by rw [hi]; trivial) hl id nofun nofun nofun
  | finish hi hl => exact h.unmark (by rw [hi]; trivial) hl id nofun nofun nofun
  | finishFull rest hi hl =>
    -- the mark is cleared first, as if the call came to `flush_locked` from `flush`
    have hen : Inv (m.unmark.setCall i .entering) :=
      h.unmark (by rw [hi]; trivial) hl id nofun nofun nofun
    have hcall : (m.unmark.setCall i .entering).calls i = .entering := Function.update_self ..
    have hflush := hen.flushLocked (i := i) rest (by rw [hcall]; exact id) hl
    have heq : (m.unmark.setCall i .entering).flushLocked i rest = m.unmark.flushLocked i rest := by
      have hup : ∀ c : Call, Function.update (Function.update m.unmark.calls i .entering) i c =
          Function.update m.unmark.calls i c := fun c => Function.update_idem ..
      unfold Machine.flushLocked Machine.quiesce Machine.setCall
      simp only [hup]
    rwa [heq] at hflush
  | enter rest hi hl => exact h.flushLocked rest (by rw [hi]; exact id) hl
  | quiesce rest hi hl => exact h.quiesce rest (by rw [hi]; exact id) hl id
  | flush hi =>
    refine h.setCall ?_ ⟨fun _ => ⟨_, hi⟩, fun _ => ⟨_, rfl⟩⟩ nofun nofun fun _ => trivial
    rw [hi]
    exact Iff.rfl
  | flushed ok hi => exact h.flushed ok hi

theorem step {m' : Machine} (h : Inv m) (hs : Step m m') : Inv m' := by
  have hrest : ∀ {c₀ : Call}, ¬ c₀.Unfinished →
      (¬ c₀.InFlight) ∧ (∀ n, c₀ ≠ .flushing n) ∧ ¬ c₀.Flushes := by
    intro c₀ hc
    cases c₀ with
    | idle => exact ⟨id, nofun, id⟩
    | returned ok => exact ⟨id, nofun, id⟩
    | _ => exact absurd trivial hc
  cases hs with
  | move hm => exact h.move hm
  | callWrite hi =>
    obtain ⟨h1, h2, h3⟩ := hrest hi
    exact h.advance rfl ⟨False.elim, fun hin => absurd hin h1⟩ nofun h2 nofun nofun
      fun hf => absurd hf h3
  | callFlush hi =>
    obtain ⟨h1, h2, h3⟩ := hrest hi
    exact h.advance rfl ⟨False.elim, fun hin => absurd hin h1⟩ nofun h2 nofun nofun
      fun hf => absurd hf h3
  | wakeWriter hi => exact h.advance hi Iff.rfl nofun nofun nofun nofun id
  | wakeFlush hi => exact h.advance hi Iff.rfl nofun nofun nofun nofun id

/-- A call that waits for nothing but the lock, or has it, can move. -/
theorem move_of_inFlight (hl : m.holder = none) (hi : (m.calls i).InFlight) :
    ∃ m', Move i m m' := by
  cases hc : m.calls i with
  | appending seq rest =>
    cases rest with
    | zero => exact ⟨_, .appendOk hc⟩
    | succ rest => exact ⟨_, .append hc⟩
  | applying seq => exact ⟨_, .apply hc⟩
  | failing seq => exact ⟨_, .fail hc hl⟩
  | finishing seq => exact ⟨_, .finish hc hl⟩
  | _ =>
    rw [hc] at hi
    exact hi.elim

theorem move_of_flushing {rest : Nat} (hi : m.calls i = .flushing rest) : ∃ m', Move i m m' := by
  cases rest with
  | zero => exact ⟨_, .flushed true hi⟩
  | succ rest => exact ⟨_, .flush hi⟩

/-- With writes in flight and the lock free, one of them can move. -/
theorem exists_move_of_pos (h : Inv m) (hl : m.holder = none) (hpos : 0 < m.write.inFlight) :
    ∃ j m', (m.calls j).Unfinished ∧ Move j m m' := by
  obtain ⟨j, hj⟩ := h.counts.exists_inFlight hpos
  obtain ⟨m', hm⟩ := move_of_inFlight hl hj
  refine ⟨j, m', ?_, hm⟩
  cases hc : m.calls j with
  | idle =>
    rw [hc] at hj
    exact hj.elim
  | returned ok =>
    rw [hc] at hj
    exact hj.elim
  | _ => trivial

/-- **No deadlock**: while a call is unfinished, one can move. -/
theorem exists_move (h : Inv m) (hi : (m.calls i).Unfinished) :
    ∃ j m', (m.calls j).Unfinished ∧ Move j m m' := by
  cases hl : m.holder with
  | some j =>
    obtain ⟨n, hn⟩ := h.flushes j hl
    obtain ⟨m', hm⟩ := move_of_flushing hn
    exact ⟨j, m', by rw [hn]; trivial, hm⟩
  | none =>
    have hself : (∃ m', Move i m m') → ∃ j m', (m.calls j).Unfinished ∧ Move j m m' :=
      fun ⟨m', hm⟩ => ⟨i, m', hi, hm⟩
    cases hc : m.calls i with
    | idle =>
      rw [hc] at hi
      exact hi.elim
    | returned ok =>
      rw [hc] at hi
      exact hi.elim
    | claiming =>
      refine hself ?_
      cases hp : m.write.flushPending with
      | true => exact ⟨_, .park hc hl hp⟩
      | false => exact ⟨_, .claim 0 hc hl hp⟩
    | claimParked =>
      -- the pending flush is at the lock, or waits for a write in flight
      obtain ⟨j, hj⟩ := h.pending (h.claimParked i hc)
      cases hcj : m.calls j with
      | quiescing => exact ⟨j, _, by rw [hcj]; trivial, .quiesce 0 hcj hl⟩
      | quiesceParked => exact h.exists_move_of_pos hl (h.quiesceParked j hcj)
      | flushing n => exact absurd hcj (h.not_flushing hl j n)
      | _ =>
        rw [hcj] at hj
        exact hj.elim
    | quiesceParked => exact h.exists_move_of_pos hl (h.quiesceParked i hc)
    | flushing n => exact absurd hc (h.not_flushing hl i n)
    | entering => exact hself ⟨_, .enter 0 hc hl⟩
    | quiescing => exact hself ⟨_, .quiesce 0 hc hl⟩
    | appending seq rest => exact hself (move_of_inFlight hl (by rw [hc]; trivial))
    | applying seq => exact hself (move_of_inFlight hl (by rw [hc]; trivial))
    | failing seq => exact hself (move_of_inFlight hl (by rw [hc]; trivial))
    | finishing seq => exact hself (move_of_inFlight hl (by rw [hc]; trivial))

/-- While a flush runs, no step claims a sequence number. -/
theorem no_claim {n : Nat} {m' : Machine} (h : Inv m) (hi : m.calls i = .flushing n)
    (hs : Step m m') : m'.write.nextSeq = m.write.nextSeq ∧ m'.write.inFlight = 0 ∧
      ((∃ k, m'.calls i = .flushing k) ∨ ∃ ok, m'.calls i = .returned ok) := by
  have hh := h.holds i n hi
  have hz := h.quiet i hh
  have hlock : m.holder ≠ none := by
    rw [hh]
    exact nofun
  -- a step of another call leaves this one where it is
  have hstay : ∀ {j : Nat} {c c' : Call}, m.calls j = c → (∀ k, c ≠ .flushing k) →
      ∃ k, (m.setCall j c').calls i = .flushing k := by
    intro j c c' hj hc
    have hij : i ≠ j := by
      rintro rfl
      rw [hi] at hj
      exact hc n hj.symm
    exact ⟨n, (Function.update_of_ne hij ..).trans hi⟩
  have hidle : ∀ {j : Nat} {c' : Call}, ¬ (m.calls j).Unfinished →
      ∃ k, (m.setCall j c').calls i = .flushing k := by
    intro j c' hj
    refine hstay rfl fun k hk => hj ?_
    rw [hk]
    trivial
  cases hs with
  | callWrite hj => exact ⟨rfl, hz, Or.inl (hidle hj)⟩
  | callFlush hj => exact ⟨rfl, hz, Or.inl (hidle hj)⟩
  | wakeWriter hj => exact ⟨rfl, hz, Or.inl (hstay hj nofun)⟩
  | wakeFlush hj => exact ⟨rfl, hz, Or.inl (hstay hj nofun)⟩
  | @move _ j hm =>
    cases hm with
    | park _ hl _ => exact absurd hl hlock
    | claim _ _ hl _ => exact absurd hl hlock
    | append hj => exact ⟨rfl, hz, Or.inl (hstay hj nofun)⟩
    | appendErr hj => exact ⟨rfl, hz, Or.inl (hstay hj nofun)⟩
    | appendOk hj => exact ⟨rfl, hz, Or.inl (hstay hj nofun)⟩
    | apply hj => exact ⟨rfl, hz, Or.inl (hstay hj nofun)⟩
    | fail _ hl => exact absurd hl hlock
    | finish _ hl => exact absurd hl hlock
    | finishFull _ _ hl => exact absurd hl hlock
    | enter _ _ hl => exact absurd hl hlock
    | quiesce _ _ hl => exact absurd hl hlock
    | flush hj =>
      have hji : some j = some i := (h.holds j _ hj).symm.trans hh
      obtain rfl := Option.some.inj hji
      exact ⟨rfl, hz, Or.inl ⟨_, Function.update_self ..⟩⟩
    | flushed ok hj =>
      have hji : some j = some i := (h.holds j _ hj).symm.trans hh
      obtain rfl := Option.some.inj hji
      have hret : (m.flushed j ok).calls j = .returned ok := by
        show Function.update (fun k => (m.calls k).wake) j (.returned ok) j = _
        rw [Function.update_self]
      exact ⟨rfl, hz, Or.inr ⟨ok, hret⟩⟩

end Inv

/-- Some steps. -/
abbrev Runs : Machine → Machine → Prop := Relation.ReflTransGen Step

theorem Inv.runs {m m' : Machine} (h : Inv m) (hr : Runs m m') : Inv m' := by
  induction hr with
  | refl => exact h
  | tail _ hs ih => exact ih.step hs

/-- **Quiescing is sound.**  In every state that calls of `write` and `flush` can reach:
`flush_quiesced` runs with no write in flight, and no step from there claims a sequence
number until it has returned; nobody waits, not notified, for what holds already; and
while a call is unfinished, some unfinished call can move. -/
theorem quiescing_sound {nextSeq : Nat} {m : Machine} (hr : Runs (start nextSeq) m) :
    (∀ i n, m.calls i = .flushing n → m.write.inFlight = 0 ∧ ∀ m', Step m m' →
      m'.write.nextSeq = m.write.nextSeq ∧ m'.write.inFlight = 0 ∧
        ((∃ k, m'.calls i = .flushing k) ∨ ∃ ok, m'.calls i = .returned ok)) ∧
    (∀ i, m.calls i = .claimParked → m.write.flushPending = true) ∧
    (∀ i, m.calls i = .quiesceParked → m.write.inFlight > 0) ∧
    ((∃ i, (m.calls i).Unfinished) → ∃ j m', (m.calls j).Unfinished ∧ Move j m m') := by
  have h := (Inv.start nextSeq).runs hr
  refine ⟨fun i n hi => ⟨h.quiet i (h.holds i n hi), fun m' hs => h.no_claim hi hs⟩,
    h.claimParked, h.quiesceParked, ?_⟩
  rintro ⟨i, hi⟩
  exact h.exists_move hi

/-- A writer under way and a flush that waits for it. -/
theorem quiescing_sound_demo :
    ∃ m, Runs (start 0) m ∧ m.calls 1 = .quiesceParked ∧ m.write.inFlight > 0 := by
  have s1 : Step (start 0) ((start 0).setCall 0 .claiming) := .callWrite id
  have s2 := Step.move (Move.claim 1 (show ((start 0).setCall 0 .claiming).calls 0 = _ from rfl)
    rfl rfl)
  have s3 := Step.callFlush (i := 1)
    (show ¬ ((((start 0).setCall 0 .claiming).claim 0 1).calls 1).Unfinished from id)
  have s4 := Step.move (Move.enter 0
    (show ((((start 0).setCall 0 .claiming).claim 0 1).setCall 1 .entering).calls 1 = _ from rfl)
    rfl)
  have hr : Runs (start 0) _ := (((Relation.ReflTransGen.single s1).tail s2).tail s3).tail s4
  exact ⟨_, hr, rfl, (quiescing_sound hr).2.2.1 1 rfl⟩

end Machine

end AccretionDb.Db
