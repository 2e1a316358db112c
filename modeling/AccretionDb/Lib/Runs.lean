import AccretionDb.Lib.Act

/-!
# Single runs of fallible programs

`wpE` speaks of all runs of a program.  Where one run is given, it is taken apart step
by step: a run of a sequence is a run of the first program and one of the rest, and a run
of an effect is a step of the device or of the memory.

`Prog.Exact` says of the run on a machine that it truncates nothing: such a run is a
`strict` one.
-/

namespace CrashLogic

variable {Op : Type} {Resp : Op → Type} {S M ε ε' α β : Type}

/-- The program runs from `σ` to `σ'`, and this is what it returns. -/
def Runs (F : Sem Op Resp S) (strict : Prop) (p : Act Op Resp M ε α) (σ : S × M)
    (r : Except ε α) (σ' : S × M) : Prop := Completes (memSem F strict) p.run σ r σ'

theorem completes_bind {T : Type} {Op : Type} {Resp : Op → Type} {F : Sem Op Resp T}
    {p : Prog Op Resp α} {f : α → Prog Op Resp β} {b : β} {s' : T} :
    ∀ {s : T}, Completes F (p >>= f) s b s' ↔
      ∃ a s₁, Completes F p s a s₁ ∧ Completes F (f a) s₁ b s' := by
  induction p with
  | ret a =>
    intro s
    constructor
    · exact fun h => ⟨a, s, ⟨rfl, rfl⟩, h⟩
    · rintro ⟨_, _, ⟨rfl, rfl⟩, h⟩
      exact h
  | op o k ih =>
    intro s
    constructor
    · rintro ⟨r, s₁, hs, h⟩
      obtain ⟨a, s₂, h1, h2⟩ := (ih r).mp h
      exact ⟨a, s₂, ⟨r, s₁, hs, h1⟩, h2⟩
    · rintro ⟨a, s₂, ⟨r, s₁, hs, h1⟩, h2⟩
      exact ⟨r, s₁, hs, (ih r).mpr ⟨a, s₂, h1, h2⟩⟩
  | hang =>
    intro s
    exact ⟨fun h => h.elim, fun ⟨_, _, h, _⟩ => h.elim⟩

namespace Runs

variable {F : Sem Op Resp S} {strict : Prop} {σ σ' : S × M}

theorem pure_iff {a : α} {r : Except ε α} :
    Runs F strict (pure a) σ r σ' ↔ Except.ok a = r ∧ σ = σ' := Iff.rfl

theorem throw_iff {e : ε} {r : Except ε α} :
    Runs F strict (throw e) σ r σ' ↔ Except.error e = r ∧ σ = σ' := Iff.rfl

theorem bind_iff {p : Act Op Resp M ε α} {f : α → Act Op Resp M ε β} {r : Except ε β} :
    Runs F strict (p >>= f) σ r σ' ↔
      (∃ a σ₁, Runs F strict p σ (.ok a) σ₁ ∧ Runs F strict (f a) σ₁ r σ') ∨
        ∃ e, r = .error e ∧ Runs F strict p σ (.error e) σ' := by
  show Completes _ (p.run >>= ExceptT.bindCont f) _ _ _ ↔ _
  rw [completes_bind]
  constructor
  · rintro ⟨a | a, σ₁, h1, h2⟩
    · obtain ⟨rfl, rfl⟩ := h2
      exact .inr ⟨a, rfl, h1⟩
    · exact .inl ⟨a, σ₁, h1, h2⟩
  · rintro (⟨a, σ₁, h1, h2⟩ | ⟨e, rfl, h1⟩)
    · exact ⟨.ok a, σ₁, h1, h2⟩
    · exact ⟨.error e, σ', h1, rfl, rfl⟩

/-- A sequence that returns a value. -/
theorem bind_ok_iff {p : Act Op Resp M ε α} {f : α → Act Op Resp M ε β} {b : β} :
    Runs F strict (p >>= f) σ (.ok b) σ' ↔
      ∃ a σ₁, Runs F strict p σ (.ok a) σ₁ ∧ Runs F strict (f a) σ₁ (.ok b) σ' := by
  rw [bind_iff, or_iff_left]
  rintro ⟨e, he, -⟩
  cases he

/-- A program with one run, and then another. -/
theorem bind_of_iff {p : Act Op Resp M ε α} {f : α → Act Op Resp M ε β} {a : α} {σ₁ : S × M}
    {r : Except ε β} (h : ∀ {r σ'}, Runs F strict p σ r σ' ↔ r = .ok a ∧ σ' = σ₁) :
    Runs F strict (p >>= f) σ r σ' ↔ Runs F strict (f a) σ₁ r σ' := by
  rw [bind_iff]
  constructor
  · rintro (⟨a', σ₂, hp, hf⟩ | ⟨e, -, hp⟩)
    · obtain ⟨ha, rfl⟩ := h.mp hp
      cases ha
      exact hf
    · cases (h.mp hp).1
  · exact fun hf => .inl ⟨a, σ₁, h.mpr ⟨rfl, rfl⟩, hf⟩

theorem get_iff {r : Except ε M} :
    Runs F strict Act.get σ r σ' ↔ r = .ok σ.2 ∧ σ' = σ := by
  constructor
  · rintro ⟨_, _, ⟨rfl, rfl⟩, rfl, rfl⟩
    exact ⟨rfl, rfl⟩
  · rintro ⟨rfl, rfl⟩
    exact ⟨_, _, ⟨rfl, rfl⟩, rfl, rfl⟩

theorem modify_iff {f : M → M} {r : Except ε Unit} :
    Runs F strict (Act.modify f) σ r σ' ↔ r = .ok () ∧ σ' = (σ.1, f σ.2) := by
  constructor
  · rintro ⟨_, _, ⟨rfl, rfl⟩, rfl, rfl⟩
    exact ⟨rfl, rfl⟩
  · rintro ⟨rfl, rfl⟩
    exact ⟨_, _, ⟨rfl, rfl⟩, rfl, rfl⟩

theorem fits_iff {p : Prop} [Decidable p] {r : Except ε Unit} :
    Runs F strict (Act.fits p) σ r σ' ↔ (strict → p) ∧ r = .ok () ∧ σ' = σ := by
  constructor
  · rintro ⟨_, _, ⟨hp, rfl⟩, rfl, rfl⟩
    exact ⟨hp, rfl, rfl⟩
  · rintro ⟨hp, rfl, rfl⟩
    exact ⟨(), _, ⟨hp, rfl⟩, rfl, rfl⟩

/-! An effect of the memory at the front of a sequence is always done. -/

theorem get_bind {f : M → Act Op Resp M ε β} {r : Except ε β} :
    Runs F strict (Act.get >>= f) σ r σ' ↔ Runs F strict (f σ.2) σ r σ' := by
  rw [bind_iff]
  constructor
  · rintro (⟨m, σ₁, hget, h⟩ | ⟨e, -, hget⟩)
    · obtain ⟨hm, rfl⟩ := get_iff.mp hget
      cases hm
      exact h
    · cases (get_iff.mp hget).1
  · exact fun h => .inl ⟨_, _, get_iff.mpr ⟨rfl, rfl⟩, h⟩

theorem modify_bind {g : M → M} {f : Unit → Act Op Resp M ε β} {r : Except ε β} :
    Runs F strict (Act.modify g >>= f) σ r σ' ↔ Runs F strict (f ()) (σ.1, g σ.2) r σ' := by
  rw [bind_iff]
  constructor
  · rintro (⟨_, σ₁, hmod, h⟩ | ⟨e, -, hmod⟩)
    · obtain ⟨-, rfl⟩ := modify_iff.mp hmod
      exact h
    · cases (modify_iff.mp hmod).1
  · exact fun h => .inl ⟨_, _, modify_iff.mpr ⟨rfl, rfl⟩, h⟩

theorem fits_bind {p : Prop} [Decidable p] {f : Unit → Act Op Resp M ε β} {r : Except ε β} :
    Runs F strict (Act.fits p >>= f) σ r σ' ↔ (strict → p) ∧ Runs F strict (f ()) σ r σ' := by
  rw [bind_iff]
  constructor
  · rintro (⟨_, σ₁, hfits, h⟩ | ⟨e, -, hfits⟩)
    · obtain ⟨hp, -, rfl⟩ := fits_iff.mp hfits
      exact ⟨hp, h⟩
    · cases (fits_iff.mp hfits).2.1
  · exact fun ⟨hp, h⟩ => .inl ⟨_, _, fits_iff.mpr ⟨hp, rfl, rfl⟩, h⟩

theorem not_hang {r : Except ε α} : ¬ Runs F strict Act.hang σ r σ' := id

theorem mapError_iff {f : ε → ε'} {p : Act Op Resp M ε α} {r : Except ε' α} :
    Runs F strict (p.mapError f) σ r σ' ↔
      ∃ r', r = r'.mapError f ∧ Runs F strict p σ r' σ' := by
  show Completes _ (p.run >>= _) _ _ _ ↔ _
  rw [completes_bind]
  constructor
  · rintro ⟨r', σ₁, h, rfl, rfl⟩
    exact ⟨r', rfl, h⟩
  · rintro ⟨r', rfl, h⟩
    exact ⟨r', σ', h, rfl, rfl⟩

end Runs

theorem Runs.device_iff {R : Op → Type} {F : Sem Op (fun o => Except ε (R o)) S} {strict : Prop}
    {o : Op} {σ σ' : S × M} {r : Except ε (R o)} :
    Runs F strict (Act.device o) σ r σ' ↔ F.step o σ.1 r σ'.1 ∧ σ'.2 = σ.2 := by
  constructor
  · rintro ⟨_, _, h, rfl, rfl⟩
    exact h
  · exact fun h => ⟨r, σ', h, rfl, rfl⟩

/-! ### Runs of a partial function -/

/-- What every step keeps, the run keeps. -/
theorem foldlM_keeps {σ ι : Type} {f : σ → ι → Option σ} {P : σ → Prop}
    (hstep : ∀ {s i s'}, P s → f s i = some s' → P s') :
    ∀ {is : List ι} {s s' : σ}, P s → is.foldlM f s = some s' → P s' := by
  intro is
  induction is with
  | nil =>
    intro s s' hs h
    exact Option.some.inj h ▸ hs
  | cons i is ih =>
    intro s s' hs h
    rw [List.foldlM_cons] at h
    obtain ⟨s₁, h₁, h₂⟩ := Option.bind_eq_some_iff.mp h
    exact ih (hstep hs h₁) h₂

/-! ### Narrowings -/

section Exact

variable {Op : Type} {Resp : Op → Type} {S M α : Type}

/-- **Nothing is truncated**: every narrowing that the run of the machine comes to is
exact. -/
def Prog.Exact (m : (o : Op) → S → Resp o × S) :
    Prog (Eff Op M) (Eff.Resp Resp) α → S × M → Prop
  | .ret _, _ => True
  | .op (.fits p _) k, σ => p ∧ (k ()).Exact m σ
  | .op (.io o) k, σ => (k (m o σ.1).1).Exact m ((m o σ.1).2, σ.2)
  | .op (.upd f) k, σ => (k σ.2).Exact m (σ.1, f σ.2)
  | .hang, _ => True

instance Prog.decidableExact (m : (o : Op) → S → Resp o × S) :
    ∀ (p : Prog (Eff Op M) (Eff.Resp Resp) α) (σ : S × M), Decidable (p.Exact m σ)
  | .ret _, _ => isTrue trivial
  | .op (.fits p _) k, σ =>
    have := Prog.decidableExact m (k ()) σ
    inferInstanceAs (Decidable (p ∧ (k ()).Exact m σ))
  | .op (.io o) k, σ => Prog.decidableExact m (k (m o σ.1).1) ((m o σ.1).2, σ.2)
  | .op (.upd f) k, σ => Prog.decidableExact m (k σ.2) (σ.1, f σ.2)
  | .hang, _ => isTrue trivial

section Compose

variable {N β : Type} {m : (o : Op) → S → Resp o × S}

/-- A sequence is exact if its first part is, and the rest from where that ends. -/
theorem Prog.exact_bind {p : Prog (Eff Op M) (Eff.Resp Resp) α}
    {k : α → Prog (Eff Op M) (Eff.Resp Resp) β} :
    ∀ {σ : S × M}, p.Exact m σ → (∀ a τ, eval (memRun m) p σ = some (a, τ) → (k a).Exact m τ) →
      (p >>= k).Exact m σ := by
  induction p with
  | ret a => exact fun _ hk => hk a _ rfl
  | hang => exact fun _ _ => trivial
  | op o q ih =>
    intro σ hp hk
    cases o with
    | io o => exact ih _ hp hk
    | upd f => exact ih _ hp hk
    | fits c dec => exact ⟨hp.1, ih _ hp.2 hk⟩

/-- A program for a part of the memory is exact on the whole memory. -/
theorem Prog.exact_zoom (l : Part M N) {p : Prog (Eff Op N) (Eff.Resp Resp) α} {μ : M} :
    ∀ {s : S} {n : N}, p.Exact m (s, n) → (p.zoom l).Exact m (s, l.set n μ) := by
  induction p with
  | ret a => exact fun _ => trivial
  | hang => exact fun _ => trivial
  | op o q ih =>
    intro s n hp
    cases o with
    | io o => exact ih _ hp
    | fits c dec => exact ⟨hp.1, ih _ hp.2⟩
    | upd f =>
      show ((q (l.get (l.set n μ))).zoom l).Exact m (s, l.set (f (l.get (l.set n μ))) (l.set n μ))
      rw [l.get_set, l.set_set]
      exact ih _ hp

end Compose

variable {F : Sem Op Resp S} {m : (o : Op) → S → Resp o × S} {σ τ : S × M}
variable {p : Prog (Eff Op M) (Eff.Resp Resp) α}

/-- The run of an exact program is one of the strict ones. -/
theorem completes_of_exact {strict : Prop} (hm : ∀ o s, F.step o s (m o s).1 (m o s).2) {a : α} :
    ∀ {σ : S × M}, (strict → p.Exact m σ) → eval (memRun m) p σ = some (a, τ) →
      Completes (memSem F strict) p σ a τ := by
  induction p with
  | ret b =>
    intro σ _ h
    obtain ⟨rfl, rfl⟩ := Prod.mk.inj (Option.some.inj h)
    exact ⟨rfl, rfl⟩
  | op o k ih =>
    intro σ hx h
    cases o with
    | io o => exact ⟨(m o σ.1).1, ((m o σ.1).2, σ.2), ⟨hm o σ.1, rfl⟩, ih _ hx h⟩
    | upd f => exact ⟨_, _, ⟨rfl, rfl⟩, ih _ hx h⟩
    | fits q dec => exact ⟨(), _, ⟨fun hs => (hx hs).1, rfl⟩, ih _ (fun hs => (hx hs).2) h⟩
  | hang => exact fun _ h => nomatch h

/-- Where the run of an exact program has no answer, a strict one hangs. -/
theorem hangs_of_exact (hm : ∀ o s, F.step o s (m o s).1 (m o s).2) :
    ∀ {σ : S × M}, p.Exact m σ → eval (memRun m) p σ = none → Hangs (memSem F True) p σ := by
  induction p with
  | ret b => exact fun _ h => nomatch h
  | op o k ih =>
    intro σ hx h
    cases o with
    | io o => exact ⟨(m o σ.1).1, ((m o σ.1).2, σ.2), ⟨hm o σ.1, rfl⟩, ih _ hx h⟩
    | upd f => exact ⟨_, _, ⟨rfl, rfl⟩, ih _ hx h⟩
    | fits q dec => exact ⟨(), _, ⟨fun _ => hx.1, rfl⟩, ih _ hx.2 h⟩
  | hang => exact fun _ _ => trivial

/-- A cut of the run of an exact program is a cut of a strict one, on a device that is the
machine. -/
theorem cut_of_exact (hm : ∀ o s r s', F.step o s r s' → r = (m o s).1 ∧ s' = (m o s).2) :
    ∀ {σ : S × M}, p.Exact m σ → Cut (memSem F False) p σ τ → Cut (memSem F True) p σ τ := by
  induction p with
  | ret b => exact fun _ h => h
  | op o k ih =>
    rintro σ hx (rfl | ⟨r, σ₁, hs, h⟩)
    · exact Cut.refl ..
    · cases o with
      | io o =>
        obtain ⟨hstep, hmem⟩ := hs
        obtain ⟨rfl, hdev⟩ := hm o _ _ _ hstep
        obtain ⟨s₁, m₁⟩ := σ₁
        obtain rfl : m₁ = σ.2 := hmem
        obtain rfl : s₁ = _ := hdev
        exact Or.inr ⟨_, _, ⟨hstep, rfl⟩, ih _ hx h⟩
      | upd f =>
        obtain ⟨rfl, rfl⟩ := hs
        exact Or.inr ⟨_, _, ⟨rfl, rfl⟩, ih _ hx h⟩
      | fits q dec =>
        obtain ⟨_, rfl⟩ := hs
        exact Or.inr ⟨r, _, ⟨fun _ => hx.1, rfl⟩, ih _ hx.2 h⟩
  | hang => exact fun _ h => h

end Exact

end CrashLogic
