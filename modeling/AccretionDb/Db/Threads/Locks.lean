import AccretionDb.Db.Threads.Steps

/-! # Who has the write lock

`in_flight` counts the writes between their claim and their end, the lock has one holder, and
a flush runs only while no write is in flight.  So while one thread runs its flush, no other
changes what the flush works on (`Locks.alone`).
-/

namespace AccretionDb.Db

open CrashLogic

namespace Shared

structure Locks (s : Shared) : Prop where
  counts : Machine.Counts (Thread.call ∘ s.threads) s.write.inFlight
  holds : ∀ i, s.holder = some i ↔ (s.threads i).Locks
  quiet : ∀ i f, s.threads i = .flush f → f.Running → s.write.inFlight = 0

theorem Locks.start {db : Db} (hidle : db.write.inFlight = 0) (log : List Entry) (T : Contents)
    (present : Nat → Bool) : Locks (start db log T present) where
  counts := ⟨∅, fun i => ⟨fun h => absurd h (Finset.notMem_empty i), fun h => h.elim⟩, hidle⟩
  holds i := ⟨nofun, fun h => h.elim⟩
  quiet i f h := by cases h

namespace Locks

variable {s s' : Shared} {i : Nat} {t : Thread}

/-- While one thread runs its flush, no write is in flight and no other flush runs. -/
theorem alone (h : Locks s) {f : Flushing} (hi : s.threads i = .flush f) (hf : f.Running)
    {j : Nat} (hj : (s.threads j).call.InFlight ∨ (s.threads j).Locks) : j = i := by
  rcases hj with hj | hj
  · have hpos := h.counts.pos (i := j) hj
    have hzero := h.quiet i f hi hf
    omega
  · have hhi : s.holder = some i := (h.holds i).mpr (by rw [hi]; exact hf)
    have hhj := (h.holds j).mpr hj
    rw [hhi] at hhj
    exact (Option.some.inj hhj).symm

/-- Nobody has the lock. -/
theorem free (h : Locks s) (hl : s.holder = none) (j : Nat) : ¬ (s.threads j).Locks := by
  intro hj
  rw [(h.holds j).mpr hj] at hl
  cases hl

/-- A thread goes on, and is to the lock what it was. -/
theorem stay (h : Locks s) (ht : s'.threads = Function.update s.threads i t)
    (hw : s'.write.inFlight = s.write.inFlight) (hh : s'.holder = s.holder)
    (hc : t.call.InFlight ↔ (s.threads i).call.InFlight)
    (hl : t.Locks ↔ (s.threads i).Locks)
    (hq : ∀ f, t = .flush f → f.Running → s.write.inFlight = 0) : Locks s' where
  counts := by
    rw [ht, hw, Function.comp_update]
    exact h.counts.update hc
  holds j := by
    rw [ht, hh]
    by_cases hj : j = i
    · subst hj
      rw [Function.update_self, hl]
      exact h.holds j
    · rw [Function.update_of_ne hj]
      exact h.holds j
  quiet j f hf hr := by
    rw [ht] at hf
    rw [hw]
    by_cases hj : j = i
    · subst hj
      rw [Function.update_self] at hf
      exact hq f hf hr
    · rw [Function.update_of_ne hj] at hf
      exact h.quiet j f hf hr

/-- A thread that nobody else keeps out takes the lock, or gives it up. -/
theorem turn (h : Locks s) (ht : s'.threads = Function.update s.threads i t)
    (hfree : s.holder = none ∨ s.holder = some i)
    (hcounts :
      Machine.Counts (Function.update (Thread.call ∘ s.threads) i t.call) s'.write.inFlight)
    (hh : s'.holder = some i ∧ t.Locks ∨ s'.holder = none ∧ ¬ t.Locks)
    (hq : ∀ f, t = .flush f → f.Running → s'.write.inFlight = 0) : Locks s' where
  counts := by
    rw [ht, Function.comp_update]
    exact hcounts
  holds j := by
    rw [ht]
    by_cases hj : j = i
    · subst hj
      rw [Function.update_self]
      rcases hh with ⟨hh, hl⟩ | ⟨hh, hl⟩
      · exact ⟨fun _ => hl, fun _ => hh⟩
      · exact ⟨fun he => absurd (hh.symm.trans he) nofun, fun ht => absurd ht hl⟩
    · rw [Function.update_of_ne hj]
      constructor
      · intro he
        rcases hh with ⟨hh, _⟩ | ⟨hh, _⟩
        · rw [hh] at he
          exact absurd (Option.some.inj he).symm hj
        · rw [hh] at he
          cases he
      · intro hl
        have he := (h.holds j).mpr hl
        rcases hfree with hf | hf
        · rw [hf] at he
          cases he
        · rw [hf] at he
          exact absurd (Option.some.inj he).symm hj
  quiet j f hf hr := by
    rw [ht] at hf
    by_cases hj : j = i
    · subst hj
      rw [Function.update_self] at hf
      exact hq f hf hr
    · rw [Function.update_of_ne hj] at hf
      have he := (h.holds j).mpr (by rw [hf]; exact hr)
      rcases hfree with hfree | hfree
      · rw [hfree] at he
        cases he
      · rw [hfree] at he
        exact absurd (Option.some.inj he).symm hj

/-- A flush that has the lock goes on with it. -/
theorem flush (h : Locks s) {f f' : Flushing} (hi : s.threads i = .flush f) (hf : f.Running)
    (ht : s'.threads = Function.update s.threads i (.flush f')) (hw : s'.write = s.write)
    (hh : s'.holder = s.holder) (hf' : f'.Running) : Locks s' := by
  refine h.stay ht (by rw [hw]) hh ?_ ?_ fun _ _ _ => h.quiet i f hi hf
  · rw [hi]
    exact Iff.rfl
  · rw [hi]
    exact ⟨fun _ => hf, fun _ => hf'⟩

/-- A thread that is not in the write path goes on. -/
theorem read (h : Locks s) {r r' : Reading} (hi : s.threads i = .read r)
    (ht : s'.threads = Function.update s.threads i (.read r')) (hw : s'.write = s.write)
    (hh : s'.holder = s.holder) : Locks s' := by
  refine h.stay ht (by rw [hw]) hh ?_ ?_ nofun
  · rw [hi]
    exact Iff.rfl
  · rw [hi]
    exact Iff.rfl

theorem flushLocked (h : Locks s) (hfree : s.holder = none ∨ s.holder = some i)
    (hi : ¬ (s.threads i).call.InFlight) : Locks (s.flushLocked i) := by
  have hcounts : ∀ f, Machine.Counts
      (Function.update (Thread.call ∘ s.threads) i (Thread.flush f).call) s.write.inFlight :=
    fun f => h.counts.update ⟨fun hf => hf.elim, fun hf => absurd hf hi⟩
  unfold Shared.flushLocked
  by_cases hpos : s.write.inFlight > 0
  · rw [if_pos hpos]
    refine h.turn rfl hfree (hcounts _) (Or.inr ⟨rfl, fun hf => hf⟩) fun f hf hr => ?_
    obtain rfl := Thread.flush.inj hf
    exact hr.elim
  · rw [if_neg hpos]
    exact h.turn rfl hfree (hcounts _) (Or.inl ⟨rfl, trivial⟩) fun _ _ _ =>
      Nat.eq_zero_of_not_pos hpos

theorem release (h : Locks s) {f : Flushing} (hi : s.threads i = .flush f) (hf : f.Running)
    (ht : s'.threads = s.threads) (hw : s'.write = s.write) (ok : Bool) :
    Locks (s'.release i ok) := by
  have hholder : s.holder = some i := (h.holds i).mpr (by rw [hi]; exact hf)
  refine h.turn (i := i) (t := .returned ok) ?_ (Or.inr hholder) ?_
    (Or.inr ⟨rfl, fun hl => hl⟩) nofun
  · show Function.update s'.threads i _ = _
    rw [ht]
  · show Machine.Counts _ s'.write.inFlight
    rw [hw]
    refine h.counts.update ⟨fun hf => hf.elim, fun hf => ?_⟩
    rw [Function.comp_apply, hi] at hf
    exact hf

theorem writeMove (h : Locks s) (hm : WriteMove i s s') : Locks s' := by
  cases hm with
  | @claim key kind hi hl hp hroom =>
    have hw : s.write.claim = { s.write with
        nextSeq := (s.write.nextSeq + 1) % 2 ^ 64, inFlight := s.write.inFlight + 1 } := by
      rw [WriteState.claim, if_neg (by rw [hp]; exact Bool.false_ne_true)]
    refine h.turn rfl (Or.inl hl) ?_ (Or.inr ⟨hl, fun hf => hf⟩) nofun
    show Machine.Counts _ s.write.claim.inFlight
    rw [hw]
    exact h.counts.add (by rw [Function.comp_apply, hi]; exact fun hf => hf) trivial
  | appendOk hi =>
    refine h.stay rfl rfl rfl ?_ ?_ nofun <;> rw [hi] <;> exact Iff.rfl
  | appendErr hi =>
    refine h.stay rfl rfl rfl ?_ ?_ nofun <;> rw [hi] <;> exact Iff.rfl
  | apply hi =>
    refine h.stay rfl rfl rfl ?_ ?_ nofun <;> rw [hi] <;> exact Iff.rfl
  | fail hi hl =>
    refine h.turn rfl (Or.inl hl) ?_ (Or.inr ⟨hl, fun hf => hf⟩) nofun
    exact h.counts.remove (by rw [Function.comp_apply, hi]; trivial) fun hf => hf
  | finish hi hl =>
    refine h.turn rfl (Or.inl hl) ?_ (Or.inl ⟨rfl, trivial⟩) nofun
    exact h.counts.remove (by rw [Function.comp_apply, hi]; trivial) fun hf => hf
  | pass hi hfull =>
    have hholder : s.holder = some i := (h.holds i).mpr (by rw [hi]; trivial)
    refine h.turn rfl (Or.inr hholder) ?_ (Or.inr ⟨rfl, fun hf => hf⟩) nofun
    refine h.counts.update ?_
    rw [Function.comp_apply, hi]
    exact Iff.rfl
  | full hi hfull =>
    have hholder : s.holder = some i := (h.holds i).mpr (by rw [hi]; trivial)
    exact h.flushLocked (Or.inr hholder) (by rw [hi]; exact fun hf => hf)

theorem flushMove {fanout : Nat} (h : Locks s) (hm : FlushMove fanout i s s') : Locks s' := by
  cases hm with
  | enter hi hl => exact h.flushLocked (Or.inl hl) (by rw [hi]; exact fun hf => hf)
  | quiesce hi hl hz =>
    refine h.turn rfl (Or.inl hl) ?_ (Or.inl ⟨rfl, trivial⟩) fun _ _ _ => hz
    refine h.counts.update ?_
    rw [Function.comp_apply, hi]
    exact Iff.rfl
  | freeze hi => exact h.flush hi trivial rfl rfl rfl trivial
  | next hi => exact h.flush hi trivial rfl rfl rfl trivial
  | write hi => exact h.flush hi trivial rfl rfl rfl trivial
  | writeEmpty hi => exact h.flush hi trivial rfl rfl rfl trivial
  | install hi => exact h.flush hi trivial rfl rfl rfl trivial
  | collect hi => exact h.flush hi trivial rfl rfl rfl trivial
  | @delete version liveIds purpose id hi hid =>
    have ht : s.threads =
        Function.update s.threads i (.flush (.sweeping version liveIds purpose)) := by
      rw [← hi, Function.update_eq_self]
    exact h.flush hi trivial ht rfl rfl trivial
  | sweptTable hi => exact h.flush hi trivial rfl rfl rfl trivial
  | sweptTier hi => exact h.flush hi trivial rfl rfl rfl trivial
  | discard hi => exact h.flush hi trivial rfl rfl rfl trivial
  | looped hi => exact h.flush hi trivial rfl rfl rfl trivial
  | reset hi => exact h.flush hi trivial rfl rfl rfl trivial
  | pick hi => exact h.flush hi trivial rfl rfl rfl trivial
  | settled hi => exact h.release hi trivial rfl rfl true
  | merge hi => exact h.flush hi trivial rfl rfl rfl trivial
  | @abort f hi hf =>
    have hr : f.Running := by
      cases f with
      | entering => exact hf.elim
      | quiescing => exact hf.elim
      | _ => trivial
    have hd : (s.drop f.pin).threads = s.threads := rfl
    exact h.release hi hr hd rfl false
  | @spoil f version junk hi hf =>
    have hr : f.Running := by
      rcases hf with ⟨t, rest, rfl⟩ | ⟨t, rfl⟩
      · trivial
      · trivial
    have hd : ({ s with files := Function.update s.files version.val.nextTableId (some junk) }.drop
        f.pin).threads = s.threads := rfl
    exact h.release hi hr hd rfl false

theorem readMove (h : Locks s) (hm : ReadMove i s s') : Locks s' := by
  cases hm <;> exact h.read (by assumption) rfl rfl rfl

/-- **Every step keeps the locks in order.** -/
theorem step {fanout : Nat} (h : Locks s) (hs : Step fanout s s') : Locks s' := by
  have hcall : ∀ {i : Nat} {t : Thread}, (s.threads i).Done → ¬ t.call.InFlight → ¬ t.Locks →
      (∀ f, t = .flush f → ¬ f.Running) → Locks (s.setThread i t) := by
    intro i t hd hc hl hf
    refine h.stay rfl rfl rfl ⟨fun h' => absurd h' hc, fun h' => ?_⟩
      ⟨fun h' => absurd h' hl, fun h' => ?_⟩ fun f he hr => absurd hr (hf f he)
    · cases hi : s.threads i with
      | write w =>
        rw [hi] at hd
        exact hd.elim
      | _ =>
        rw [hi] at h'
        exact h'.elim
    · cases hi : s.threads i with
      | write w =>
        rw [hi] at hd
        exact hd.elim
      | flush f =>
        rw [hi] at hd
        exact hd.elim
      | _ =>
        rw [hi] at h'
        exact h'.elim
  cases hs with
  | write hm => exact h.writeMove hm
  | flush hm => exact h.flushMove hm
  | read hm => exact h.readMove hm
  | callWrite key kind hd => exact hcall hd (fun h => h) (fun h => h) nofun
  | callFlush hd =>
    refine hcall hd (fun h => h) (fun h => h) fun f he hr => ?_
    obtain rfl := Thread.flush.inj he
    exact hr
  | callGet key hd => exact hcall hd (fun h => h) (fun h => h) nofun
  | callScan range hd => exact hcall hd (fun h => h) (fun h => h) nofun

end Locks

end Shared

end AccretionDb.Db
