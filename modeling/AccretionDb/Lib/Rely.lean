import AccretionDb.Lib.Act

/-!
# Programs beside others

A program may share its state with others, whose steps come between its own.  In
`Sem.beside R F` the others may move the state along `R` before and after every
effect of `F`; `R` is what the program relies on.  An assertion that such moves keep
is `Stable`, and a precondition made of stable assertions is stable itself
(`wp_beside_stable`): so it outlives the steps of the others, and the program's own
steps carry it on (`wp_beside_step`).

`wpR` is `wpE` beside others.  A part of the program that works on a memory of its own
needs no new proof (`wpR_scope`).
-/

namespace CrashLogic

section Beside

variable {Op : Type} {Resp : Op → Type} {S α : Type}

/-- The effects of `F`, with moves of `R` before and after each. -/
def Sem.beside (R : S → S → Prop) (F : Sem Op Resp S) : Sem Op Resp S where
  safe o s := ∀ s₁, R s s₁ → F.safe o s₁
  step o s r s' := ∃ s₁ s₂, R s s₁ ∧ F.step o s₁ r s₂ ∧ R s₂ s'

/-- What others may do: nothing, and one thing after the other. -/
structure Rely (R : S → S → Prop) : Prop where
  refl : ∀ s, R s s
  trans : ∀ {s t u}, R s t → R t u → R s u

/-- The others keep the assertion. -/
def Stable (R : S → S → Prop) (P : S → Prop) : Prop := ∀ s s', R s s' → P s → P s'

variable {R : S → S → Prop} {F : Sem Op Resp S} {H : Prop} {C : S → Prop}

/-- **What is proved of a program outlives the steps of others.** -/
theorem wp_beside_stable (hR : Rely R) (hC : Stable R C) {p : Prog Op Resp α}
    {Q : α → S → Prop} (hQ : ∀ a, Stable R (Q a)) : Stable R (wp (F.beside R) H C p Q) := by
  intro s s' hs h
  cases p with
  | ret a => exact ⟨hC s s' hs h.1, hQ a s s' hs h.2⟩
  | op o k =>
    refine ⟨hC s s' hs h.1, fun s₁ h₁ => h.2.1 s₁ (hR.trans hs h₁), ?_⟩
    rintro r t ⟨s₁, s₂, h₁, hstep, h₂⟩
    exact h.2.2 r t ⟨s₁, s₂, hR.trans hs h₁, hstep, h₂⟩
  | hang => exact ⟨hC s s' hs h.1, h.2⟩

/-- The program's own step. -/
theorem wp_beside_step (hR : Rely R) {o : Op} {k : Resp o → Prog Op Resp α} {Q : α → S → Prop}
    {s s' : S} {r : Resp o} (h : wp (F.beside R) H C (.op o k) Q s) (hs : F.step o s r s') :
    F.safe o s ∧ wp (F.beside R) H C (k r) Q s' :=
  ⟨h.2.1 s (hR.refl s), h.2.2 r s' ⟨s, s', hR.refl s, hs, hR.refl s'⟩⟩

/-- Others that do nothing are among those the program can stand. -/
theorem wp_of_beside (hR : Rely R) {p : Prog Op Resp α} {Q : α → S → Prop} :
    ∀ {s : S}, wp (F.beside R) H C p Q s → wp F H C p Q s := by
  induction p with
  | ret a => exact fun h => h
  | op o k ih =>
    intro s h
    refine ⟨h.1, h.2.1 s (hR.refl s), fun r s' hs => ?_⟩
    exact ih r (wp_beside_step hR h hs).2
  | hang => exact fun h => h

end Beside

/-! ### Fallible programs beside others -/

section Rules

variable {Op : Type} {Resp : Op → Type} {S M N ε ε' α β : Type}

/-- The precondition of a fallible program that relies on `R`. -/
def wpR (R : S × M → S × M → Prop) (F : Sem Op Resp S) (strict H : Prop) (C : S × M → Prop)
    (p : Act Op Resp M ε α) (Q : α → S × M → Prop) (E : ε → S × M → Prop) (σ : S × M) : Prop :=
  wp ((memSem F strict).beside R) H C p.run (outcome Q E) σ

variable {R : S × M → S × M → Prop} {F : Sem Op Resp S} {strict H : Prop} {C : S × M → Prop}
variable {σ : S × M}

theorem stable_outcome {Q : α → S × M → Prop} {E : ε → S × M → Prop} (hQ : ∀ a, Stable R (Q a))
    (hE : ∀ e, Stable R (E e)) (r : Except ε α) : Stable R (outcome Q E r) := by
  cases r with
  | ok a => exact hQ a
  | error e => exact hE e

theorem wpR_stable (hR : Rely R) (hC : Stable R C) {p : Act Op Resp M ε α}
    {Q : α → S × M → Prop} {E : ε → S × M → Prop} (hQ : ∀ a, Stable R (Q a))
    (hE : ∀ e, Stable R (E e)) : Stable R (wpR R F strict H C p Q E) :=
  wp_beside_stable hR hC (stable_outcome hQ hE)

/-- Alone a program does what it does beside others. -/
theorem wpE_of_wpR (hR : Rely R) {p : Act Op Resp M ε α} {Q : α → S × M → Prop}
    {E : ε → S × M → Prop} (h : wpR R F strict H C p Q E σ) : wpE F strict H C p Q E σ :=
  wpE_iff.mpr (wp_of_beside hR h)

theorem wpR_bind {p : Act Op Resp M ε α} {f : α → Act Op Resp M ε β} {Q : β → S × M → Prop}
    {E : ε → S × M → Prop} : wpR R F strict H C (p >>= f) Q E σ ↔
      wpR R F strict H C p (fun a τ => wpR R F strict H C (f a) Q E τ) E σ :=
  wp_outcome_bind

/-- An update of the memory: the others may have moved before it. -/
theorem wpR_modifyGet {f : M → M} {Q : M → S × M → Prop} {E : ε → S × M → Prop}
    (sC : Stable R C) (sQ : ∀ m, Stable R (Q m)) (hC : C σ)
    (h : ∀ τ, R σ τ → C (τ.1, f τ.2) ∧ Q τ.2 (τ.1, f τ.2)) :
    wpR R F strict H C (Act.modifyGet f) Q E σ := by
  refine ⟨hC, fun _ _ => trivial, ?_⟩
  rintro r υ ⟨τ, τ', hτ, ⟨rfl, rfl⟩, hυ⟩
  exact ⟨sC _ υ hυ (h τ hτ).1, sQ _ _ υ hυ (h τ hτ).2⟩

theorem wpR_modify {f : M → M} {Q : Unit → S × M → Prop} {E : ε → S × M → Prop}
    (sC : Stable R C) (sQ : Stable R (Q ())) (hC : C σ)
    (h : ∀ τ, R σ τ → C (τ.1, f τ.2) ∧ Q () (τ.1, f τ.2)) :
    wpR R F strict H C (Act.modify f) Q E σ := by
  refine ⟨hC, fun _ _ => trivial, ?_⟩
  rintro r υ ⟨τ, τ', hτ, ⟨rfl, rfl⟩, hυ⟩
  exact ⟨sC _ υ hυ (h τ hτ).1, sQ _ υ hυ (h τ hτ).2⟩

/-! ### Others that leave the device alone -/

/-- The others only change the memory, along `r`. -/
def onMemory (r : M → M → Prop) : S × M → S × M → Prop := fun σ τ => τ.1 = σ.1 ∧ r σ.2 τ.2

theorem Rely.onMemory {r : M → M → Prop} (hr : Rely r) :
    Rely (CrashLogic.onMemory r : S × M → S × M → Prop) where
  refl σ := ⟨rfl, hr.refl σ.2⟩
  trans h h' := ⟨h'.1.trans h.1, hr.trans h.2 h'.2⟩

theorem Rely.eq : Rely (Eq : M → M → Prop) := ⟨fun _ => rfl, Eq.trans⟩

/-- There are no others. -/
theorem stable_onMemory_eq (P : S × M → Prop) : Stable (onMemory Eq) P := by
  intro σ τ hτ h
  rwa [Prod.ext hτ.1 hτ.2.symm]

/-- **A program with a memory of its own** does beside others what it does alone. -/
theorem wpR_scope {r : M → M → Prop} (hr : Rely r) {n : N} {p : Act Op Resp N ε α}
    {Q : α → S × M → Prop} {E : ε → S × M → Prop} {s : S} {m : M}
    (sC : Stable (onMemory r) C) (sQ : ∀ a, Stable (onMemory r) (Q a))
    (sE : ∀ e, Stable (onMemory r) (E e))
    (h : wpE F strict H (fun τ => C (τ.1, m)) p (fun a τ => Q a (τ.1, m))
      (fun e τ => E e (τ.1, m)) (s, n)) :
    wpR (onMemory r) F strict H C (Act.scope n p) Q E (s, m) := by
  have hall : ∀ (p : Prog (Eff Op N) (Eff.Resp Resp) (Except ε α)) {s : S} {n : N},
      wp (memSem F strict) H (fun τ => C (τ.1, m)) p
        (outcome (fun a τ => Q a (τ.1, m)) fun e τ => E e (τ.1, m)) (s, n) →
      ∀ m', r m m' → wp ((memSem F strict).beside (onMemory r)) H C (p.scope n)
        (outcome Q E) (s, m') := by
    intro p
    induction p with
    | ret x =>
      intro s n h m' hm
      refine ⟨sC (s, m) _ ⟨rfl, hm⟩ h.1, ?_⟩
      cases x with
      | ok a => exact sQ a (s, m) _ ⟨rfl, hm⟩ h.2
      | error e => exact sE e (s, m) _ ⟨rfl, hm⟩ h.2
    | op o k ih =>
      intro s n h m' hm
      cases o with
      | io o =>
        refine ⟨sC (s, m) _ ⟨rfl, hm⟩ h.1, ?_, ?_⟩
        · rintro τ ⟨rfl, _⟩
          exact h.2.1
        · rintro x ⟨s', m₃⟩ ⟨⟨_, m₁⟩, ⟨_, m₂⟩, ⟨rfl, h₁⟩, ⟨hstep, hmem⟩, rfl, h₃⟩
          obtain rfl : m₂ = m₁ := hmem
          exact ih x (h.2.2 x (s', n) ⟨hstep, rfl⟩) m₃ (hr.trans hm (hr.trans h₁ h₃))
      | upd f => exact ih n (h.2.2 n (s, f n) ⟨rfl, rfl⟩) m' hm
      | fits q dec =>
        refine ⟨sC (s, m) _ ⟨rfl, hm⟩ h.1, fun _ _ => trivial, ?_⟩
        rintro x ⟨_, m₃⟩ ⟨⟨_, m₁⟩, _, ⟨rfl, h₁⟩, ⟨hq, rfl⟩, rfl, h₃⟩
        exact ih x (h.2.2 x (_, n) ⟨hq, rfl⟩) m₃ (hr.trans hm (hr.trans h₁ h₃))
    | hang => exact fun h m' hm => ⟨sC (_, m) _ ⟨rfl, hm⟩ h.1, h.2⟩
  exact hall p.run (wpE_iff.mp h) m (hr.refl m)

end Rules

-- as with `wpE`, from here on only the rules say what `wpR` is
attribute [irreducible] wpR

end CrashLogic
