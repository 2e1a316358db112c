import AccretionDb.Db.Threads.Flushes

/-! # Every interleaving

One invariant for all interleavings of writers, flushes and readers (`Inv.step`).
-/

namespace AccretionDb.Db

open CrashLogic

namespace Thread

theorem Carries.inFlight {t : Thread} {e : Entry} (h : t.Carries e) : t.call.InFlight := by
  rcases h with rfl | rfl
  · trivial
  · trivial

end Thread

namespace Shared

/-! ### The invariant -/

structure Inv (base : History Bytes InternalValue) (s : Shared) : Prop where
  locks : Locks s
  pinned : Pinned s
  files : Files s
  apart : ∀ i j e e', (s.threads i).Carries e → (s.threads j).Carries e' →
    e.2.seq = e'.2.seq → i = j
  store : ∃ B n, Store base s B n ∧ ∀ i, (s.threads i).Fits base s B n

variable {base : History Bytes InternalValue} {s s' : Shared} {i : Nat} {t : Thread}

namespace Inv

/-- Thread `i` goes on; what the others rely on stays true. -/
theorem next (h : Inv base s) (hl : Locks s') (hheld : Pinned s') (hfiles : Files s')
    (ht : s'.threads = Function.update s.threads i t)
    (hcarry : ∀ e, t.Carries e → (s.threads i).Carries e ∨
      ∀ j e', (s.threads j).Carries e' → e'.2.seq ≠ e.2.seq)
    (hstore : ∃ B n, Store base s' B n ∧ t.Fits base s' B n ∧
      ∀ j, j ≠ i → (s.threads j).Fits base s' B n) : Inv base s' := by
  obtain ⟨B, n, hst, hfit, hothers⟩ := hstore
  refine ⟨hl, hheld, hfiles, fun j k e e' hj hk hseq => ?_, B, n, hst, fun j => ?_⟩
  · by_cases hji : j = i
    · by_cases hki : k = i
      · rw [hji, hki]
      · rw [hji, threads_eq ht] at hj
        rw [threads_ne ht hki] at hk
        rcases hcarry e hj with hold | hnew
        · rw [hji]
          exact h.apart i k e e' hold hk hseq
        · exact absurd hseq.symm (hnew k e' hk)
    · rw [threads_ne ht hji] at hj
      by_cases hki : k = i
      · rw [hki, threads_eq ht] at hk
        rcases hcarry e' hk with hold | hnew
        · rw [hki]
          exact h.apart j i e e' hj hold hseq
        · exact absurd hseq (hnew j e hj)
      · rw [threads_ne ht hki] at hk
        exact h.apart j k e e' hj hk hseq
  · by_cases hji : j = i
    · rw [hji, threads_eq ht]
      exact hfit
    · rw [threads_ne ht hji]
      exact hothers j hji

/-- The step is not noticed by the others. -/
theorem quiet (h : Inv base s) (hl : Locks s') (hheld : Pinned s') (hfiles : Files s')
    (ht : s'.threads = Function.update s.threads i t) (hs : Same s s') (hf : s'.files = s.files)
    (hw : s'.written = s.written) (hcarry : ∀ e, ¬ t.Carries e)
    (hfit : ∀ B n, Store base s B n → (s.threads i).Fits base s B n → t.Fits base s' B n) :
    Inv base s' := by
  obtain ⟨B, n, hst, hfits⟩ := h.store
  refine h.next hl hheld hfiles ht (fun e he => absurd he (hcarry e)) ⟨B, n, ?_, ?_, ?_⟩
  · exact hst.same hs fun table _ => by rw [hw]
  · exact hfit B n hst (hfits i)
  · exact fun j _ => (hfits j).same hs hf hw

/-- Nor is it by the manifest. -/
theorem rest (h : Inv base s) (hl : Locks s') (ht : s'.threads = Function.update s.threads i t)
    (hs : Same s s') (hm : s'.manifest = s.manifest) (hf : s'.files = s.files)
    (hw : s'.written = s.written) (hp : t.pin = (s.threads i).pin)
    (hsweep : ∀ version liveIds purpose, t ≠ .flush (.sweeping version liveIds purpose))
    (hcarry : ∀ e, ¬ t.Carries e)
    (hfit : ∀ B n, Store base s B n → (s.threads i).Fits base s B n → t.Fits base s' B n) :
    Inv base s' := by
  refine h.quiet hl (h.pinned.keep ht hp (by rw [hm]) (by rw [hm]; exact fun _ hv => hv))
    (h.files.frame ht (by rw [hm]) (Or.inr (Or.inl hp)) (fun _ _ _ he => (hsweep _ _ _ he).elim)
      (fun _ _ => by rw [hw]) fun _ _ _ _ => by rw [hf]) ht hs hf hw hcarry hfit

/-- **While a flush runs** nobody is writing and no other flush runs, so only readers may
notice what it does. -/
theorem alone (h : Inv base s) {f : Flushing} (hi : s.threads i = .flush f) (hr : f.Running)
    (hl : Locks s') (hheld : Pinned s') (hfiles : Files s')
    (ht : s'.threads = Function.update s.threads i t) (hcarry : ∀ e, ¬ t.Carries e)
    (happlied : s'.applied = s.applied)
    (hw : ∀ v, s.Alive v → ∀ table ∈ v.val.allTables, s'.written table.id = s.written table.id)
    (hstore : ∀ B n, Store base s B n → f.Fits s B →
      ∃ B' n', B ≤ B' ∧ Store base s' B' n' ∧ t.Fits base s' B' n') : Inv base s' := by
  obtain ⟨B, n, hst, hfits⟩ := h.store
  have hfit := hfits i
  rw [hi] at hfit
  obtain ⟨B', n', hle, hst', hfit'⟩ := hstore B n hst hfit
  have halone : ∀ j, j ≠ i → (∀ f', s.threads j = .flush f' → ¬ f'.Running) ∧
      ∀ e, ¬ (s.threads j).Carries e := by
    refine fun j hj => ⟨fun f' hf' hr' => ?_, fun e he => ?_⟩
    · exact hj (h.locks.alone hi hr (Or.inr (by rw [hf']; exact hr')))
    · exact hj (h.locks.alone hi hr (Or.inl he.inFlight))
  refine h.next hl hheld hfiles ht (fun e he => absurd he (hcarry e)) ⟨B', n', hst', hfit', ?_⟩
  intro j hj
  obtain ⟨hnot, hno⟩ := halone j hj
  refine (hfits j).mono hnot (fun e he => absurd he (hno e)) (fun e he => absurd he (hno e))
    ⟨fun m _ => by rw [happlied], by rw [happlied], hle⟩ fun v hv => hw v (Or.inr ⟨j, hv⟩)

/-! ### Writers -/

/-- A writer goes on while no flush runs. -/
theorem write (h : Inv base s) (hrun : s.holder = none ∨ (s.threads i).call.InFlight)
    (hl : Locks s') (ht : s'.threads = Function.update s.threads i t)
    (hm : s'.manifest = s.manifest) (hf : s'.files = s.files) (hw : s'.written = s.written)
    (hi : (s.threads i).pin = none) (hp : t.pin = none)
    (hsweep : ∀ version liveIds purpose, t ≠ .flush (.sweeping version liveIds purpose))
    (hcarry : ∀ e, t.Carries e → (s.threads i).Carries e ∨
      ∀ j e', (s.threads j).Carries e' → e'.2.seq ≠ e.2.seq)
    (hlog : s.log ⊆ s'.log) {more : List Entry} (happlied : s'.applied = s.applied ++ more)
    (hstore : ∀ B n, Store base s B n → (s.threads i).Fits base s B n →
      Store base s' B n ∧ t.Fits base s' B n ∧ ∀ j e, j ≠ i → (s.threads j).Carries e →
        Claimed base s n e → Claimed base s' n e) : Inv base s' := by
  have hp' : t.pin = (s.threads i).pin := hp.trans hi.symm
  obtain ⟨B, n, hst, hfits⟩ := h.store
  obtain ⟨hst', hfit, hclaim⟩ := hstore B n hst (hfits i)
  have hnone : ∀ j f, s.threads j = .flush f → ¬ f.Running := by
    intro j f hj hr
    rcases hrun with hfree | hin
    · exact h.locks.free hfree j (by rw [hj]; exact hr)
    · have hzero := h.locks.quiet j f hj hr
      have hpos := h.locks.counts.pos (i := i) hin
      omega
  refine h.next hl (h.pinned.keep ht hp' (by rw [hm]) (by rw [hm]; exact fun _ hv => hv))
    (h.files.frame ht (by rw [hm]) (Or.inl hp) (fun _ _ _ he => (hsweep _ _ _ he).elim)
      (fun _ _ => by rw [hw]) fun _ _ _ _ => by rw [hf]) ht hcarry ⟨B, n, hst', hfit, ?_⟩
  intro j hj
  refine (hfits j).mono (hnone j) (fun e => hclaim j e hj) (fun _ _ he => hlog he)
    ⟨fun m hm => ?_, ?_, le_refl B⟩ fun _ _ _ _ => by rw [hw]
  · rw [happlied]
    exact instant_append more hm
  · rw [happlied, List.length_append]
    exact Nat.le_add_right ..

theorem flushLocked (h : Inv base s) (hl : Locks (s.flushLocked i))
    (hi : (s.threads i).pin = none) : Inv base (s.flushLocked i) := by
  unfold Shared.flushLocked at hl ⊢
  by_cases hpos : s.write.inFlight > 0
  · rw [if_pos hpos] at hl ⊢
    exact h.rest hl rfl ⟨rfl, rfl, rfl, rfl, rfl⟩ rfl rfl rfl hi.symm nofun (fun _ => nofun)
      fun _ _ _ _ => trivial
  · rw [if_neg hpos] at hl ⊢
    exact h.rest hl rfl ⟨rfl, rfl, rfl, rfl, rfl⟩ rfl rfl rfl hi.symm nofun (fun _ => nofun)
      fun _ _ _ _ => trivial

theorem writeMove (h : Inv base s) (hm : WriteMove i s s') : Inv base s' := by
  have hl := h.locks.writeMove hm
  cases hm with
  | @claim key kind hi hfree hp hroom =>
    refine h.write (Or.inl hfree) hl rfl rfl rfl rfl (by rw [hi]; rfl) rfl nofun ?_ (fun _ he => he)
      (List.append_nil _).symm fun B n hst _ => ?_
    · rintro e (he | he)
      · obtain rfl := Writing.appending.inj (Thread.write.inj he)
        refine Or.inr fun j e' hj => ?_
        obtain ⟨B, n, hst, hfits⟩ := h.store
        exact Nat.ne_of_lt ((hfits j).claimed hj).lt
      · cases he
    · obtain ⟨hst', hnew, hold⟩ := hst.claim (i := i) key kind hp hroom
      exact ⟨hst', hnew, fun _ e _ _ => hold e⟩
  | @appendOk e hi =>
    refine h.write (Or.inr (by rw [hi]; trivial)) hl rfl rfl rfl rfl (by rw [hi]; rfl) rfl nofun ?_
      (fun _ he => List.mem_append_left _ he) (List.append_nil _).symm fun B n hst hfit => ?_
    · rintro e' (he | he)
      · cases he
      · obtain rfl := Writing.applying.inj (Thread.write.inj he)
        exact Or.inl (Or.inl hi)
    · rw [hi] at hfit
      obtain ⟨hst', hmine, hold⟩ := hst.append (i := i) (t := .write (.applying e)) hfit
      refine ⟨hst', ⟨hmine, List.mem_append_right _ List.mem_cons_self⟩,
        fun j e' hj hc hclaim => ?_⟩
      exact hold e' hclaim fun hseq => hj (h.apart j i e' e hc (Or.inl hi) hseq)
  | appendErr hi =>
    exact h.rest hl rfl ⟨rfl, rfl, rfl, rfl, rfl⟩ rfl rfl rfl (by rw [hi]; rfl) nofun
      (fun _ he => by rcases he with he | he <;> cases he) fun _ _ _ _ => trivial
  | @apply e hi =>
    have happlied : (s.apply i e).applied = s.applied ++ [e] := rfl
    refine h.write (Or.inr (by rw [hi]; trivial)) hl rfl rfl rfl rfl (by rw [hi]; rfl) rfl nofun ?_
      (fun _ he => he) happlied fun B n hst hfit => ?_
    · rintro e' (he | he) <;> cases he
    · rw [hi] at hfit
      obtain ⟨hst', hold⟩ := hst.apply hfit.1 hfit.2 (i := i)
      refine ⟨hst', trivial, fun j e' hj hc hclaim => ?_⟩
      exact hold e' hclaim fun hseq => hj (h.apart j i e' e hc (Or.inr hi) hseq)
  | fail hi _ =>
    exact h.rest hl rfl ⟨rfl, rfl, rfl, rfl, rfl⟩ rfl rfl rfl (by rw [hi]; rfl) nofun
      (fun _ he => by rcases he with he | he <;> cases he) fun _ _ _ _ => trivial
  | finish hi _ =>
    exact h.rest hl rfl ⟨rfl, rfl, rfl, rfl, rfl⟩ rfl rfl rfl (by rw [hi]; rfl) nofun
      (fun _ he => by rcases he with he | he <;> cases he) fun _ _ _ _ => trivial
  | pass hi _ =>
    exact h.rest hl rfl ⟨rfl, rfl, rfl, rfl, rfl⟩ rfl rfl rfl (by rw [hi]; rfl) nofun
      (fun _ he => by rcases he with he | he <;> cases he) fun _ _ _ _ => trivial
  | full hi _ => exact h.flushLocked hl (by rw [hi]; rfl)

/-! ### Readers -/

theorem readMove (h : Inv base s) (hm : ReadMove i s s') : Inv base s' := by
  have hl := h.locks.readMove hm
  obtain ⟨r, r', hread⟩ := hm.readOnly
  have hpin : (s.threads i).pin = r.pin := by rw [hread.before]; rfl
  have hheld : Pinned s' := by
    rcases hread.pin with ⟨hman, hp⟩ | ⟨hman, hp, hp'⟩ | ⟨v, hman, hp, hp'⟩
    · exact h.pinned.keep hread.after (hp.trans hpin.symm) (by rw [hman])
        (by rw [hman]; exact fun _ hv => hv)
    · exact h.pinned.take hread.after (hpin.trans hp) hp' hman
    · exact h.pinned.give hread.after (hpin.trans hp) hp' hman
  have hp : (Thread.read r').pin = none ∨ (Thread.read r').pin = (s.threads i).pin ∨
      (Thread.read r').pin = some s.manifest.current := by
    rcases hread.pin with ⟨_, hp⟩ | ⟨_, _, hp'⟩ | ⟨v, _, _, hp'⟩
    · exact Or.inr (Or.inl (hp.trans hpin.symm))
    · exact Or.inr (Or.inr hp')
    · exact Or.inl hp'
  have hfiles : Files s' := h.files.frame hread.after hread.same.current hp nofun
    (fun _ _ => by rw [hread.written]) fun _ _ _ _ => by rw [hread.files]
  refine h.quiet hl hheld hfiles hread.after hread.same hread.files hread.written (fun _ => nofun)
    fun B n hst hfit => ?_
  rw [hread.before] at hfit
  exact hm.knows hst h.files hread.before (threads_eq hread.after) hfit

/-! ### Flushes -/

/-- What the thread that runs a flush relies on. -/
theorem relies (h : Inv base s) {f : Flushing} (hi : s.threads i = .flush f) :
    ∃ B n, Store base s B n ∧ f.Fits s B := by
  obtain ⟨B, n, hst, hfits⟩ := h.store
  have hfit := hfits i
  rw [hi] at hfit
  exact ⟨B, n, hst, hfit⟩

/-- A version that may be held is dropped. -/
theorem dropped (h : Inv base s) (ht : s'.threads = Function.update s.threads i t)
    (hp : t.pin = none) {v : Option (Arc Version)} (hv : (s.threads i).pin = v)
    (hm : s'.manifest = (s.drop v).manifest) : Pinned s' := by
  cases v with
  | none =>
    exact h.pinned.keep ht (hp.trans hv.symm) (by rw [hm]; rfl) (by rw [hm]; exact fun _ hv => hv)
  | some v => exact h.pinned.give ht hv hp hm

/-- **A table is written.** -/
theorem written (h : Inv base s) {f f' : Flushing} (hi : s.threads i = .flush f) (hr : f.Running)
    {es : List Entry}
    (hs : s' = (s.writeFile s.manifest.current.val.nextTableId es).setThread i (.flush f'))
    (hl : Locks s') (hp : f'.pin = f.pin)
    (hsweep : ∀ version liveIds purpose, f' ≠ .sweeping version liveIds purpose)
    (hfit : ∀ B n, Store base s B n → f.Fits s B → f'.Fits s' B) : Inv base s' := by
  subst hs
  have hpin : (Thread.flush f').pin = (s.threads i).pin := by
    rw [hi]
    exact hp
  refine h.alone hi hr hl (h.pinned.keep rfl hpin rfl fun _ hv => hv) ?_ rfl (fun _ => nofun) rfl
    (update_written h.files es) fun B n hst hf => ⟨B, n, le_refl B, ?_, hfit B n hst hf⟩
  · refine h.files.frame rfl rfl (Or.inr (Or.inl hpin))
      (fun _ _ _ he => (hsweep _ _ _ (Thread.flush.inj he)).elim)
      (fun id hid => Function.update_of_ne (Nat.ne_of_lt hid) ..) (h.files.update_ne _)
  · exact hst.same ⟨rfl, rfl, rfl, rfl, rfl⟩ (update_written h.files es _ (Or.inl rfl))

theorem flushMove {fanout : Nat} (h : Inv base s) (hm : FlushMove fanout i s s') : Inv base s' := by
  have hl := h.locks.flushMove hm
  cases hm with
  | enter hi _ => exact h.flushLocked hl (by rw [hi]; rfl)
  | quiesce hi _ _ =>
    exact h.rest hl rfl ⟨rfl, rfl, rfl, rfl, rfl⟩ rfl rfl rfl (by rw [hi]; rfl) nofun
      (fun _ => nofun) fun _ _ _ _ => trivial
  | freeze hi =>
    have hpin : (s.threads i).pin = none := by rw [hi]; rfl
    refine h.alone hi trivial hl (h.pinned.keep rfl hpin.symm rfl fun _ hv => hv)
      (h.files.frame rfl rfl (Or.inl rfl) nofun (fun _ _ => rfl) fun _ _ _ _ => rfl) rfl
      (fun _ => nofun) rfl (fun _ _ _ _ => rfl) fun B n hst _ => ?_
    exact ⟨B, _, le_refl B, hst.freeze, rfl, active_freezeActive s.memtables⟩
  | @next t rest hi =>
    have hpin : (s.threads i).pin = none := by rw [hi]; rfl
    have hsame : Same s ({ s with manifest := s.manifest.pin }.setThread i
      (.flush (.writing s.manifest.current t rest))) := ⟨rfl, rfl, rfl, rfl, rfl⟩
    refine h.quiet hl (h.pinned.take rfl hpin rfl rfl) (h.files.frame rfl rfl (Or.inr (Or.inr rfl))
      nofun (fun _ _ => rfl) fun _ _ _ _ => rfl) rfl hsame rfl rfl (fun _ => nofun)
      fun B n _ hfit => ?_
    rw [hi] at hfit
    exact ⟨rfl, Left.same hfit hsame⟩
  | @write version t rest table hi _ hout =>
    obtain ⟨_, _, _, rfl, _⟩ := h.relies hi
    refine h.written hi trivial rfl hl rfl nofun fun B n hst hfit => ?_
    exact ready_table hst h.files hfit.2 hout s.write.nextSeq
  | @writeEmpty version t rest hi _ hout =>
    obtain ⟨_, _, _, rfl, _⟩ := h.relies hi
    refine h.written hi trivial rfl hl rfl nofun fun B n hst hfit =>
      ⟨hfit.2.same ⟨rfl, rfl, rfl, rfl, rfl⟩, fun k v hv => ?_⟩
    have hnil : t.val.snapshot = [] := by
      cases hsnap : t.val.snapshot with
      | nil => rfl
      | cons first more =>
        rw [hsnap] at hout
        cases hout
    change t.val.versions k = some v at hv
    rw [← t.val.layerOf_snapshot, hnil] at hv
    cases hv
  | @install version new purpose hi =>
    have hpin : (Thread.flush (.collecting version purpose)).pin = (s.threads i).pin := by
      rw [hi]
      rfl
    obtain ⟨_, _, _, hready, _⟩ := h.relies hi
    refine h.alone hi trivial hl (h.pinned.keep rfl hpin rfl fun v hv => ?_)
      (h.files.install hready rfl rfl hpin rfl rfl fun j version' liveIds purpose' hj => ?_) rfl
      (fun _ => nofun) rfl (fun _ _ _ _ => rfl) fun B n hst hfit => ?_
    · refine List.mem_cons_of_mem _ (List.mem_append.mpr ?_)
      rcases List.mem_cons.mp hv with rfl | hv
      · exact Or.inr List.mem_cons_self
      · exact Or.inl hv
    · by_cases hji : j = i
      · rw [hji] at hj
        have hthread := (threads_eq (s := s) (i := i) rfl).symm.trans hj
        cases hthread
      · have hthread : s.threads j = _ := (threads_ne (s := s) rfl hji).symm.trans hj
        exact hji (h.locks.alone hi trivial (Or.inr (by rw [hthread]; trivial)))
    · cases purpose with
      | table t rest =>
        obtain ⟨hleft, hlayers⟩ := hfit.2
        exact ⟨_, n, le_sup_left, hst.installTable hleft.frozen hready.arranged hlayers,
          ⟨hleft.frozen, hleft.active⟩, le_sup_right⟩
      | tier => exact ⟨B, n, le_refl B, hst.installTier hready.arranged hfit.2, trivial⟩
  | @collect version purpose hi =>
    have hpin : (s.threads i).pin = some version := by rw [hi]; rfl
    refine h.quiet hl (h.pinned.retain rfl hpin.symm rfl)
      (h.files.collect h.pinned rfl rfl hpin rfl rfl) rfl ⟨rfl, rfl, rfl, rfl, rfl⟩ rfl rfl
      (fun _ => nofun) fun B n _ hfit => ?_
    rw [hi] at hfit
    exact Placed.same hfit ⟨rfl, rfl, rfl, rfl, rfl⟩
  | @delete version liveIds purpose id hi hid =>
    have ht : s.threads =
        Function.update s.threads i (.flush (.sweeping version liveIds purpose)) := by
      rw [← hi, Function.update_eq_self]
    have hpin : (Thread.flush (.sweeping version liveIds purpose)).pin = (s.threads i).pin := by
      rw [hi]
    refine h.alone hi trivial hl (h.pinned.keep ht hpin rfl fun _ hv => hv)
      (h.files.frame ht rfl (Or.inr (Or.inl hpin)) (fun _ _ _ _ => hi) (fun _ _ => rfl) ?_) ht
      (fun _ => nofun) rfl (fun _ _ _ _ => rfl) fun B n hst hfit => ?_
    · -- the tables of the versions that are alive have live ids
      intro v hv table htable
      have hlive := h.files.live i version liveIds purpose hi v hv table htable
      have hne : table.id ≠ id := fun he => hid (he ▸ hlive)
      exact Function.update_of_ne hne ..
    · exact ⟨B, n, le_refl B, hst.same ⟨rfl, rfl, rfl, rfl, rfl⟩ fun _ _ => rfl,
        Placed.same hfit ⟨rfl, rfl, rfl, rfl, rfl⟩⟩
  | @sweptTable version liveIds t rest hi _ =>
    refine h.rest hl rfl ⟨rfl, rfl, rfl, rfl, rfl⟩ rfl rfl rfl (by rw [hi]; rfl) nofun
      (fun _ => nofun) fun B n _ hfit => ?_
    rw [hi] at hfit
    have hplaced : Placed s B (.table t rest) := hfit
    exact hplaced.same ⟨rfl, rfl, rfl, rfl, rfl⟩
  | @sweptTier version liveIds hi _ =>
    have hpin : (s.threads i).pin = some version := by rw [hi]; rfl
    exact h.quiet hl (h.pinned.give rfl hpin rfl rfl) (h.files.frame rfl rfl (Or.inl rfl) nofun
      (fun _ _ => rfl) fun _ _ _ _ => rfl) rfl ⟨rfl, rfl, rfl, rfl, rfl⟩ rfl rfl (fun _ => nofun)
      fun _ _ _ _ => trivial
  | @discard version t rest hi =>
    have hpin : (s.threads i).pin = some version := by rw [hi]; rfl
    refine h.alone hi trivial hl (h.pinned.give rfl hpin rfl rfl)
      (h.files.frame rfl rfl (Or.inl rfl) nofun (fun _ _ => rfl) fun _ _ _ _ => rfl) rfl
      (fun _ => nofun) rfl (fun _ _ _ _ => rfl)
      fun B n hst hfit => ⟨B, n, le_refl B, hst.discard hfit.1.frozen hfit.2, ?_⟩
    exact ⟨MemtableSet.frozen_discard hfit.1.frozen, hfit.1.active⟩
  | looped hi =>
    refine h.rest hl rfl ⟨rfl, rfl, rfl, rfl, rfl⟩ rfl rfl rfl (by rw [hi]; rfl) nofun
      (fun _ => nofun) fun B n _ hfit => ?_
    rw [hi] at hfit
    exact Left.same hfit ⟨rfl, rfl, rfl, rfl, rfl⟩
  | reset hi =>
    have hpin : (s.threads i).pin = none := by rw [hi]; rfl
    exact h.alone hi trivial hl (h.pinned.keep rfl hpin.symm rfl fun _ hv => hv)
      (h.files.frame rfl rfl (Or.inl rfl) nofun (fun _ _ => rfl) fun _ _ _ _ => rfl) rfl
      (fun _ => nofun) rfl (fun _ _ _ _ => rfl) fun B n hst hfit =>
      ⟨B, n, le_refl B, hst.reset hfit.frozen hfit.active, trivial⟩
  | pick hi hfull =>
    have hpin : (s.threads i).pin = none := by rw [hi]; rfl
    exact h.quiet hl (h.pinned.take rfl hpin rfl rfl) (h.files.frame rfl rfl (Or.inr (Or.inr rfl))
      nofun (fun _ _ => rfl) fun _ _ _ _ => rfl) rfl ⟨rfl, rfl, rfl, rfl, rfl⟩ rfl rfl
      (fun _ => nofun) fun _ _ _ _ => ⟨rfl, (firstFull_eq_some hfull).1⟩
  | settled hi _ =>
    exact h.rest hl rfl ⟨rfl, rfl, rfl, rfl, rfl⟩ rfl rfl rfl (by rw [hi]; rfl) nofun
      (fun _ => nofun) fun _ _ _ _ => trivial
  | @merge version t hi _ _ =>
    obtain ⟨_, _, _, rfl, ht⟩ := h.relies hi
    refine h.written hi trivial rfl hl rfl nofun fun B n hst hfit => ?_
    exact ready_tier hst h.files ht
  | @abort f hi _ =>
    exact h.quiet hl (h.dropped rfl rfl (by rw [hi]; rfl) rfl) (h.files.frame rfl (by
      cases f.pin <;> rfl) (Or.inl rfl) nofun (fun _ _ => rfl) fun _ _ _ _ => rfl) rfl
      ⟨rfl, rfl, by cases f.pin <;> rfl, rfl, rfl⟩ rfl rfl (fun _ => nofun) fun _ _ _ _ => trivial
  | @spoil f version junk hi hf _ =>
    have hcur : version = s.manifest.current ∧ f.Running := by
      rcases hf with ⟨t, rest, rfl⟩ | ⟨t, rfl⟩
      · obtain ⟨_, _, _, he, _⟩ := h.relies hi
        exact ⟨he, trivial⟩
      · obtain ⟨_, _, _, he, _⟩ := h.relies hi
        exact ⟨he, trivial⟩
    obtain ⟨rfl, hr⟩ := hcur
    have hman : ∀ x : Shared, (x.drop f.pin).manifest.current = x.manifest.current := by
      intro x
      cases f.pin <;> rfl
    refine h.alone hi hr hl (h.dropped rfl rfl (by rw [hi]; rfl) rfl) (h.files.frame rfl (hman _)
      (Or.inl rfl) nofun (fun _ _ => rfl) (h.files.update_ne _)) rfl (fun _ => nofun) rfl
      (fun _ _ _ _ => rfl) fun B n hst _ => ⟨B, n, le_refl B, ?_, trivial⟩
    exact hst.same ⟨rfl, rfl, hman _, rfl, rfl⟩ fun _ _ => rfl

/-! ### Steps and runs -/

/-- A thread calls. -/
theorem call (h : Inv base s) (hd : (s.threads i).Done) (hl : Locks (s.setThread i t))
    (hp : t.pin = none)
    (hsweep : ∀ version liveIds purpose, t ≠ .flush (.sweeping version liveIds purpose))
    (hcarry : ∀ e, ¬ t.Carries e) (hfit : ∀ B n, t.Fits base (s.setThread i t) B n) :
    Inv base (s.setThread i t) := by
  have hpin : (s.threads i).pin = none := by
    cases hi : s.threads i with
    | flush f =>
      rw [hi] at hd
      exact hd.elim
    | read r =>
      rw [hi] at hd
      cases r with
      | walking => exact hd.elim
      | gathering => exact hd.elim
      | _ => rfl
    | _ => rfl
  exact h.rest hl rfl ⟨rfl, rfl, rfl, rfl, rfl⟩ rfl rfl rfl (hp.trans hpin.symm) hsweep hcarry
    fun B n _ _ => hfit B n

/-- **Every step keeps the invariant.** -/
theorem step {fanout : Nat} (h : Inv base s) (hs : Step fanout s s') : Inv base s' := by
  have hl := h.locks.step hs
  cases hs with
  | write hm => exact h.writeMove hm
  | flush hm => exact h.flushMove hm
  | read hm => exact h.readMove hm
  | callWrite key kind hd =>
    exact h.call hd hl rfl nofun (fun _ he => by rcases he with he | he <;> cases he)
      fun _ _ => trivial
  | callFlush hd => exact h.call hd hl rfl nofun (fun _ => nofun) fun _ _ => trivial
  | callGet key hd => exact h.call hd hl rfl nofun (fun _ => nofun) fun _ _ => Nat.le_refl _
  | callScan range hd => exact h.call hd hl rfl nofun (fun _ => nofun) fun _ _ => Nat.le_refl _

theorem runs {fanout : Nat} (h : Inv base s) (hr : Runs fanout s s') : Inv base s' := by
  induction hr with
  | refl => exact h
  | tail _ hs ih => exact ih.step hs

end Inv

/-! ### Written once -/

/-- The ids that are taken stay taken, and nothing is written to their files any more. -/
structure Extends (s s' : Shared) : Prop where
  next : s.manifest.current.val.nextTableId ≤ s'.manifest.current.val.nextTableId
  written : ∀ id < s.manifest.current.val.nextTableId, s'.written id = s.written id

theorem Extends.refl (s : Shared) : Extends s s := ⟨Nat.le_refl _, fun _ _ => rfl⟩

theorem Extends.of_eq (hm : s'.manifest.current = s.manifest.current)
    (hw : s'.written = s.written) : Extends s s' := by
  refine ⟨?_, fun _ _ => by rw [hw]⟩
  rw [hm]

theorem Extends.trans {s₁ s₂ s₃ : Shared} (h : Extends s₁ s₂) (h' : Extends s₂ s₃) :
    Extends s₁ s₃ where
  next := h.next.trans h'.next
  written id hid := (h'.written id (hid.trans_le h.next)).trans (h.written id hid)

theorem extends_flushLocked (s : Shared) (i : Nat) : Extends s (s.flushLocked i) := by
  unfold Shared.flushLocked
  by_cases hpos : s.write.inFlight > 0
  · rw [if_pos hpos]
    exact .of_eq rfl rfl
  · rw [if_neg hpos]
    exact .of_eq rfl rfl

theorem Inv.extends_step {fanout : Nat} (h : Inv base s) (hs : Step fanout s s') :
    Extends s s' := by
  cases hs with
  | write hm =>
    cases hm with
    | full => exact extends_flushLocked s _
    | _ => exact .of_eq rfl rfl
  | flush hm =>
    cases hm with
    | enter => exact extends_flushLocked s _
    | write hi =>
      obtain ⟨_, _, _, rfl, _⟩ := h.relies hi
      exact ⟨Nat.le_refl _, fun id hid => Function.update_of_ne (Nat.ne_of_lt hid) ..⟩
    | writeEmpty hi =>
      obtain ⟨_, _, _, rfl, _⟩ := h.relies hi
      exact ⟨Nat.le_refl _, fun id hid => Function.update_of_ne (Nat.ne_of_lt hid) ..⟩
    | merge hi =>
      obtain ⟨_, _, _, rfl, _⟩ := h.relies hi
      exact ⟨Nat.le_refl _, fun id hid => Function.update_of_ne (Nat.ne_of_lt hid) ..⟩
    | install hi =>
      obtain ⟨_, _, _, hready, _⟩ := h.relies hi
      exact ⟨hready.next, fun _ _ => rfl⟩
    | @abort f hi =>
      have hcur : (s.drop f.pin).manifest.current = s.manifest.current := by cases f.pin <;> rfl
      exact .of_eq hcur rfl
    | @spoil f _ _ hi =>
      have hcur : (s.drop f.pin).manifest.current = s.manifest.current := by cases f.pin <;> rfl
      exact .of_eq hcur rfl
    | _ => exact .of_eq rfl rfl
  | read hm =>
    obtain ⟨_, _, hread⟩ := hm.readOnly
    exact .of_eq hread.same.current hread.written
  | _ => exact .of_eq rfl rfl

theorem Inv.runs_extends {fanout : Nat} (h : Inv base s) (hr : Runs fanout s s') :
    Extends s s' := by
  induction hr with
  | refl => exact .refl s
  | tail hrun hs ih => exact ih.trans ((h.runs hrun).extends_step hs)

/-! ### What is logged -/

/-- What is in the log is applied, or its writer is about to apply it. -/
def Accounted (base : History Bytes InternalValue) (s : Shared) : Prop :=
  ∀ e ∈ s.log, s.total base e.1 e.2 ∨ ∃ j, s.threads j = .write (.applying e)

namespace Accounted

/-- Thread `i` does something else. -/
theorem frame (h : Accounted base s) (ht : s'.threads = Function.update s.threads i t)
    (hi : ∀ e, s.threads i ≠ .write (.applying e)) (happlied : s'.applied = s.applied)
    (hlog : s'.log ⊆ s.log) : Accounted base s' := by
  intro e he
  rw [total, happlied]
  refine (h e (hlog he)).imp_right ?_
  rintro ⟨j, hj⟩
  have hji : j ≠ i := fun hji => hi e (hji ▸ hj)
  exact ⟨j, (threads_ne ht hji).trans hj⟩

theorem flushLocked (h : Accounted base s) (hi : ∀ e, s.threads i ≠ .write (.applying e)) :
    Accounted base (s.flushLocked i) := by
  unfold Shared.flushLocked
  by_cases hpos : s.write.inFlight > 0
  · rw [if_pos hpos]
    exact h.frame rfl hi rfl fun _ he => he
  · rw [if_neg hpos]
    exact h.frame rfl hi rfl fun _ he => he

theorem writeMove (h : Accounted base s) (hm : WriteMove i s s') : Accounted base s' := by
  cases hm with
  | @appendOk e hi =>
    intro e' he'
    rcases List.mem_append.mp he' with hold | hnew
    · refine (h e' hold).imp_right ?_
      rintro ⟨j, hj⟩
      have hji : j ≠ i := by
        rintro rfl
        cases hi.symm.trans hj
      exact ⟨j, (threads_ne rfl hji).trans hj⟩
    · obtain rfl := List.mem_singleton.mp hnew
      exact Or.inr ⟨i, threads_eq rfl⟩
  | @apply e hi =>
    intro e' he'
    rcases h e' he' with hin | ⟨j, hj⟩
    · exact Or.inl (hin.imp_right fun hin => List.mem_append_left _ hin)
    · by_cases hji : j = i
      · subst hji
        obtain rfl := Writing.applying.inj (Thread.write.inj (hi.symm.trans hj))
        exact Or.inl (Or.inr (List.mem_append_right _ List.mem_cons_self))
      · exact Or.inr ⟨j, (threads_ne rfl hji).trans hj⟩
  | full hi =>
    exact h.flushLocked fun e he => by cases hi.symm.trans he
  | claim hi | appendErr hi | fail hi | finish hi | pass hi =>
    exact h.frame rfl (fun e he => by cases hi.symm.trans he) rfl fun _ he => he

theorem flushMove {fanout : Nat} (h : Accounted base s) (hm : FlushMove fanout i s s') :
    Accounted base s' := by
  cases hm with
  | enter hi => exact h.flushLocked fun e he => by cases hi.symm.trans he
  | delete => exact h
  | reset => exact fun e he => absurd he List.not_mem_nil
  | quiesce hi | freeze hi | next hi | write hi | writeEmpty hi | install hi | collect hi
  | sweptTable hi | sweptTier hi | discard hi | looped hi | pick hi | settled hi | merge hi
  | abort hi | spoil _ hi =>
    exact h.frame rfl (fun e he => by cases hi.symm.trans he) rfl fun _ he => he

theorem call (h : Accounted base s) (hd : (s.threads i).Done) :
    Accounted base (s.setThread i t) :=
  h.frame rfl (fun e he => by rw [he] at hd; exact hd) rfl fun _ he => he

theorem step {fanout : Nat} (h : Accounted base s) (hs : Step fanout s s') :
    Accounted base s' := by
  cases hs with
  | write hm => exact h.writeMove hm
  | flush hm => exact h.flushMove hm
  | read hm =>
    obtain ⟨_, _, hread⟩ := hm.readOnly
    refine h.frame hread.after (fun e he => by cases hread.before.symm.trans he)
      hread.same.applied ?_
    rw [hread.same.log]
    exact fun _ he => he
  | callWrite _ _ hd | callFlush hd | callGet _ hd | callScan _ hd => exact h.call hd

theorem runs {fanout : Nat} (h : Accounted base s) (hr : Runs fanout s s') :
    Accounted base s' := by
  induction hr with
  | refl => exact h
  | tail _ hs ih => exact ih.step hs

end Accounted

/-- While a flush runs, all that is logged is applied. -/
theorem Inv.applied (h : Inv base s) (ha : Accounted base s) {f : Flushing}
    (hi : s.threads i = .flush f) (hr : f.Running) : ∀ e ∈ s.log, s.total base e.1 e.2 := by
  intro e he
  refine (ha e he).resolve_right ?_
  rintro ⟨j, hj⟩
  obtain rfl := h.locks.alone hi hr (Or.inl (by rw [hj]; trivial))
  cases hi.symm.trans hj

end Shared

end AccretionDb.Db
