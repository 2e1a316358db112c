import AccretionDb.Lib.Act

/-!
# Invariants of a program

A program keeps `J` if every outcome of a run that starts in `J` is in `J` again.
What holds in the middle of the run does not matter, nor whether the run ends.  The
rules follow the shape of the program, so an invariant that every call of the device
and every update of the memory keeps is one that the whole program keeps.
-/

namespace CrashLogic

variable {Op : Type} {Resp : Op → Type} {S M N ε ε' α β : Type}
variable {F : Sem Op Resp S} {strict : Prop} {J : S × M → Prop}

/-- The program keeps `J`. -/
def Keeps (F : Sem Op Resp S) (strict : Prop) (J : S × M → Prop) (p : Act Op Resp M ε α) : Prop :=
  ∀ σ, J σ → wpE F strict True (fun _ => True) p (fun _ => J) (fun _ => J) σ

namespace Keeps

theorem pure (a : α) : Keeps F strict J (Pure.pure a : Act Op Resp M ε α) :=
  fun _ hJ => wpE_pure.mpr ⟨trivial, hJ⟩

theorem throw (e : ε) : Keeps F strict J (MonadExcept.throw e : Act Op Resp M ε α) :=
  fun _ hJ => wpE_throw.mpr ⟨trivial, hJ⟩

theorem hang : Keeps F strict J (Act.hang : Act Op Resp M ε α) :=
  fun _ _ => wpE_hang trivial trivial

theorem fits (p : Prop) [Decidable p] : Keeps F strict J (Act.fits p : Act Op Resp M ε Unit) :=
  fun _ hJ => wpE_fits trivial fun _ => hJ

theorem ofExcept (r : Except ε α) : Keeps F strict J (Act.ofExcept r : Act Op Resp M ε α) := by
  intro σ hJ
  refine wpE_ofExcept.mpr ⟨trivial, ?_⟩
  cases r with
  | ok a => exact hJ
  | error e => exact hJ

/-- A sequence whose first step says something of its value. -/
theorem bind_of {P : α → Prop} {p : Act Op Resp M ε α} {f : α → Act Op Resp M ε β}
    (hp : ∀ σ, J σ →
      wpE F strict True (fun _ => True) p (fun a τ => P a ∧ J τ) (fun _ => J) σ)
    (hf : ∀ a, P a → Keeps F strict J (f a)) : Keeps F strict J (p >>= f) := by
  intro σ hJ
  exact wpE_bind.mpr (wpE_post (hp σ hJ) (fun a τ _ h => hf a h.1 τ h.2) fun _ _ _ h => h)

theorem bind {p : Act Op Resp M ε α} {f : α → Act Op Resp M ε β} (hp : Keeps F strict J p)
    (hf : ∀ a, Keeps F strict J (f a)) : Keeps F strict J (p >>= f) :=
  fun σ hJ => wpE_bind.mpr (wpE_post (hp σ hJ) (fun a τ _ h => hf a τ h) fun _ _ _ h => h)

theorem get_bind (P : M → Prop) {f : M → Act Op Resp M ε β} (hP : ∀ σ, J σ → P σ.2)
    (hf : ∀ m, P m → Keeps F strict J (f m)) : Keeps F strict J (Act.get >>= f) :=
  bind_of (fun σ hJ => wpE_get trivial ⟨hP σ hJ, hJ⟩) hf

theorem modifyGet_bind {g : M → M} {f : M → Act Op Resp M ε β} (hg : ∀ σ, J σ → J (σ.1, g σ.2))
    (hf : ∀ m, Keeps F strict J (f m)) : Keeps F strict J (Act.modifyGet g >>= f) :=
  bind (fun σ hJ => wpE_modifyGet trivial trivial (hg σ hJ)) hf

theorem modify {g : M → M} (hg : ∀ σ, J σ → J (σ.1, g σ.2)) :
    Keeps F strict J (Act.modify g : Act Op Resp M ε Unit) :=
  fun σ hJ => wpE_modify trivial trivial (hg σ hJ)

theorem mapError {f : ε → ε'} {p : Act Op Resp M ε α} (hp : Keeps F strict J p) :
    Keeps F strict J (p.mapError f) :=
  fun σ hJ => wpE_mapError (hp σ hJ)

theorem attempt {p : Act Op Resp M ε α} (hp : Keeps F strict J p) :
    Keeps F strict J (p.attempt : Act Op Resp M ε' _) :=
  fun σ hJ => wpE_attempt (hp σ hJ)

/-- A program on a part of the memory keeps what it keeps with the rest as it is. -/
theorem zoom (l : Part M N) {p : Act Op Resp N ε α}
    (hp : ∀ m, Keeps F strict (fun τ => J (τ.1, l.set τ.2 m)) p) :
    Keeps F strict J (p.zoom l) := by
  rintro ⟨s, m⟩ hJ
  refine wpE_zoom l (hp m (s, l.get m) ?_)
  show J (s, l.set (l.get m) m)
  rwa [l.set_get]

/-- A program with a memory of its own keeps what its device calls keep. -/
theorem scope {K : N → Prop} {n : N} {p : Act Op Resp N ε α} (hn : K n)
    (hp : ∀ m, Keeps F strict (fun τ => J (τ.1, m) ∧ K τ.2) p) :
    Keeps F strict J (Act.scope n p) := by
  rintro ⟨s, m⟩ hJ
  refine wpE_scope (wpE_post (hp m (s, n) ⟨hJ, hn⟩) (fun _ _ _ h => h.1) fun _ _ _ h => h.1)

end Keeps

end CrashLogic
