import AccretionDb.Lib.Prog

/-!
# Fallible programs over a device and a shared memory

The effects of `Eff Op M` are those of a device, an atomic update of a memory of
type `M`, and `fits p`, which does nothing: it marks a point where the program
is about to narrow a value, with `p` saying that the narrowing is exact.  A
semantics that is `strict` has no step from a `fits p` with `p` false, so its
runs are the runs in which nothing is truncated.

`Act` adds errors on top, and `wpE` is `wp` with one postcondition for a value
and one for an error.  `zoom` runs a program written for one part of a memory on
the whole memory, and `scope` one that has a memory of its own.
-/

namespace CrashLogic

/-- Device effects, memory updates, and marks. -/
inductive Eff (Op M : Type) : Type
  | io (o : Op)
  | upd (f : M → M)
  | fits (p : Prop) (dec : Decidable p)

namespace Eff

variable {Op M : Type}

/-- An update answers with the memory it found. -/
def Resp (R : Op → Type) : Eff Op M → Type
  | io o => R o
  | upd _ => M
  | fits _ _ => Unit

end Eff

section Semantics

variable {Op : Type} {Resp : Op → Type} {S M : Type}

/-- A device beside a memory. -/
def memSem (F : Sem Op Resp S) (strict : Prop) : Sem (Eff Op M) (Eff.Resp Resp) (S × M) where
  safe
    | .io o, σ => F.safe o σ.1
    | .upd _, _ => True
    | .fits _ _, _ => True
  step
    | .io o, σ, r, σ' => F.step o σ.1 r σ'.1 ∧ σ'.2 = σ.2
    | .upd f, σ, r, σ' => r = σ.2 ∧ σ' = (σ.1, f σ.2)
    | .fits p _, σ, _, σ' => (strict → p) ∧ σ' = σ

theorem memSem_simulates {T : Type} {F : Sem Op Resp S} {G : Sem Op Resp T} {inv : S → Prop}
    {abs : S → T} (h : Simulates F G inv abs) (strict : Prop) :
    Simulates (memSem (M := M) F strict) (memSem G strict) (fun σ => inv σ.1)
      (fun σ => (abs σ.1, σ.2)) where
  safe o σ hi hs := by
    cases o with
    | io o => exact h.safe o σ.1 hi hs
    | upd f => exact trivial
    | fits p dec => exact trivial
  step o σ r σ' hi hs hstep := by
    cases o with
    | io o =>
      obtain ⟨h1, h2⟩ := h.step o σ.1 r σ'.1 hi hs hstep.1
      exact ⟨h1, h2, hstep.2⟩
    | upd f =>
      obtain ⟨rfl, rfl⟩ := hstep
      exact ⟨hi, rfl, rfl⟩
    | fits p dec =>
      obtain ⟨hp, rfl⟩ := hstep
      exact ⟨hi, hp, rfl⟩

/-- The machine for a device that is a function, beside a memory. -/
def memRun (m : (o : Op) → S → Resp o × S) : (o : Eff Op M) → S × M → Eff.Resp Resp o × (S × M)
  | .io o, σ => ((m o σ.1).1, ((m o σ.1).2, σ.2))
  | .upd f, σ => (σ.2, (σ.1, f σ.2))
  | .fits _ _, σ => ((), σ)

/-- A device that answers as it may, and a program that does not count. -/
theorem memSem_memRun {F : Sem Op Resp S} {m : (o : Op) → S → Resp o × S}
    (hm : ∀ o s, F.step o s (m o s).1 (m o s).2) (o : Eff Op M) (σ : S × M) :
    (memSem F False).step o σ (memRun m o σ).1 (memRun m o σ).2 := by
  cases o with
  | io o => exact ⟨hm o σ.1, rfl⟩
  | upd f => exact ⟨rfl, rfl⟩
  | fits p => exact ⟨fun h => h.elim, rfl⟩

end Semantics

/-- Programs over a device and a memory that may end in an error. -/
abbrev Act (Op : Type) (Resp : Op → Type) (M ε α : Type) : Type :=
  ExceptT ε (Prog (Eff Op M) (Eff.Resp Resp)) α

namespace Act

variable {Op : Type} {Resp : Op → Type} {M N ε ε' α β : Type}

/-- The memory as it is now. -/
def get : Act Op Resp M ε M :=
  ExceptT.mk (Prog.op (.upd id) (fun m => .ret (.ok m)))

/-- One atomic update of the memory; the answer is the memory before it. -/
def modifyGet (f : M → M) : Act Op Resp M ε M :=
  ExceptT.mk (Prog.op (.upd f) (fun m => .ret (.ok m)))

def modify (f : M → M) : Act Op Resp M ε Unit :=
  ExceptT.mk (Prog.op (.upd f) (fun _ => .ret (.ok ())))

def fits (p : Prop) [Decidable p] : Act Op Resp M ε Unit :=
  ExceptT.mk (Prog.op (.fits p inferInstance) (fun _ => .ret (.ok ())))

def hang : Act Op Resp M ε α := ExceptT.mk Prog.hang

/-- A device effect whose answer is already a value or an error. -/
def device {R : Op → Type} (o : Op) : Act Op (fun o => Except ε (R o)) M ε (R o) :=
  ExceptT.mk (Prog.op (.io o) .ret)

/-- Rewrite the error. -/
def mapError (f : ε → ε') (p : Act Op Resp M ε α) : Act Op Resp M ε' α :=
  ExceptT.mk (p.run >>= fun r => pure (r.mapError f))

/-- Run `p` and hand its outcome on as a value. -/
def attempt (p : Act Op Resp M ε α) : Act Op Resp M ε' (Except ε α) :=
  ExceptT.mk (p.run >>= fun r => pure (.ok r))

/-- Continue with an outcome as if it had just been computed. -/
def ofExcept (r : Except ε α) : Act Op Resp M ε α := ExceptT.mk (pure r)

end Act

/-! ### A part of a memory -/

/-- A part of type `N` of a memory of type `M`. -/
structure Part (M N : Type) where
  get : M → N
  set : N → M → M
  get_set : ∀ n m, get (set n m) = n
  set_set : ∀ n n' m, set n (set n' m) = set n m
  set_get : ∀ m, set (get m) m = m

/-- The whole memory. -/
def Part.self : Part M M where
  get m := m
  set n _ := n
  get_set _ _ := rfl
  set_set _ _ _ := rfl
  set_get _ := rfl

section Zoom

variable {Op : Type} {Resp : Op → Type} {S M N ε α : Type}

/-- Run a program for a part of the memory on the whole memory. -/
def Prog.zoom (l : Part M N) :
    Prog (Eff Op N) (Eff.Resp Resp) α → Prog (Eff Op M) (Eff.Resp Resp) α
  | .ret a => .ret a
  | .op (.io o) k => .op (.io o) (fun r => (k r).zoom l)
  | .op (.upd f) k => .op (.upd fun m => l.set (f (l.get m)) m) (fun m => (k (l.get m)).zoom l)
  | .op (.fits p dec) k => .op (.fits p dec) (fun r => (k r).zoom l)
  | .hang => .hang

def Act.zoom (l : Part M N) (p : Act Op Resp N ε α) : Act Op Resp M ε α :=
  ExceptT.mk (Prog.zoom l p.run)

/-- **Zooming changes nothing outside the part.**  A precondition on the part,
with the rest of the memory put around it, is one on the whole memory. -/
theorem wp_zoom (l : Part M N) {F : Sem Op Resp S} {strict H : Prop} {C : S × M → Prop}
    {p : Prog (Eff Op N) (Eff.Resp Resp) α} {Q : α → S × M → Prop} {m : M} :
    ∀ {s : S} {n : N},
      wp (memSem F strict) H (fun τ => C (τ.1, l.set τ.2 m)) p
        (fun a τ => Q a (τ.1, l.set τ.2 m)) (s, n) →
      wp (memSem F strict) H C (p.zoom l) Q (s, l.set n m) := by
  induction p with
  | ret a => exact fun h => h
  | op o k ih =>
    intro s n h
    cases o with
    | io o =>
      refine ⟨h.1, h.2.1, fun r σ' hs => ?_⟩
      obtain ⟨s', m'⟩ := σ'
      obtain ⟨h1, rfl⟩ := hs
      exact ih r (h.2.2 r (s', n) ⟨h1, rfl⟩)
    | upd f =>
      refine ⟨h.1, trivial, fun r σ' hs => ?_⟩
      obtain ⟨rfl, rfl⟩ := hs
      simp only [l.get_set, l.set_set]
      exact ih n (h.2.2 n (s, f n) ⟨rfl, rfl⟩)
    | fits p dec =>
      refine ⟨h.1, trivial, fun r σ' hs => ?_⟩
      obtain ⟨hp, rfl⟩ := hs
      exact ih r (h.2.2 r (s, n) ⟨hp, rfl⟩)
  | hang => exact fun h => h

end Zoom

/-! ### A memory of its own -/

section Scope

variable {Op : Type} {Resp : Op → Type} {S M N ε α : Type}

/-- Run a program with a memory of its own, which is gone when it ends. -/
def Prog.scope : Prog (Eff Op N) (Eff.Resp Resp) α → N → Prog (Eff Op M) (Eff.Resp Resp) α
  | .ret a, _ => .ret a
  | .op (.io o) k, n => .op (.io o) (fun r => (k r).scope n)
  | .op (.upd f) k, n => (k n).scope (f n)
  | .op (.fits p dec) k, n => .op (.fits p dec) (fun r => (k r).scope n)
  | .hang, _ => .hang

def Act.scope (n : N) (p : Act Op Resp N ε α) : Act Op Resp M ε α :=
  ExceptT.mk (Prog.scope p.run n)

/-- The memory outside is not touched. -/
theorem wp_scope {F : Sem Op Resp S} {strict H : Prop} {C : S × M → Prop}
    {p : Prog (Eff Op N) (Eff.Resp Resp) α} {Q : α → S × M → Prop} {m : M} :
    ∀ {s : S} {n : N},
      wp (memSem F strict) H (fun τ => C (τ.1, m)) p (fun a τ => Q a (τ.1, m)) (s, n) →
      wp (memSem F strict) H C (p.scope n) Q (s, m) := by
  induction p with
  | ret a => exact fun h => h
  | op o k ih =>
    intro s n h
    cases o with
    | io o =>
      refine ⟨h.1, h.2.1, fun r σ' hs => ?_⟩
      obtain ⟨s', m'⟩ := σ'
      obtain ⟨h1, rfl⟩ := hs
      exact ih r (h.2.2 r (s', n) ⟨h1, rfl⟩)
    | upd f => exact ih n (h.2.2 n (s, f n) ⟨rfl, rfl⟩)
    | fits p dec =>
      refine ⟨h.1, trivial, fun r σ' hs => ?_⟩
      obtain ⟨hp, rfl⟩ := hs
      exact ih r (h.2.2 r (s, n) ⟨hp, rfl⟩)
  | hang => exact fun h => h

end Scope

/-! ### Preconditions of fallible programs -/

section Rules

variable {Op : Type} {Resp : Op → Type} {S M N ε ε' α β : Type}

/-- The postcondition made of one for values and one for errors. -/
def outcome (Q : α → S → Prop) (R : ε → S → Prop) : Except ε α → S → Prop
  | .ok a, s => Q a s
  | .error e, s => R e s

section Outcome

variable {T : Type} {G : Sem (Eff Op M) (Eff.Resp Resp) T} {H : Prop} {C : T → Prop} {σ : T}

theorem wp_outcome_mono {p : Act Op Resp M ε α} {C' : T → Prop} {Q Q' : α → T → Prop}
    {R R' : ε → T → Prop} (h : wp G H C p.run (outcome Q R) σ) (hC : ∀ τ, C τ → C' τ)
    (hQ : ∀ a τ, C τ → Q a τ → Q' a τ) (hR : ∀ e τ, C τ → R e τ → R' e τ) :
    wp G H C' p.run (outcome Q' R') σ :=
  wp_mono hC (fun r τ hc hq => by
    cases r with
    | ok a => exact hQ a τ hc hq
    | error e => exact hR e τ hc hq) h

theorem wp_outcome_bind {p : Act Op Resp M ε α} {f : α → Act Op Resp M ε β} {Q : β → T → Prop}
    {R : ε → T → Prop} : wp G H C (p >>= f).run (outcome Q R) σ ↔
      wp G H C p.run (outcome (fun a τ => wp G H C (f a).run (outcome Q R) τ) R) σ := by
  show wp _ H C (p.run >>= ExceptT.bindCont f) _ _ ↔ _
  rw [wp_bind]
  constructor
  · refine fun h => wp_post h (fun r τ _ hr => ?_)
    cases r with
    | ok a => exact hr
    | error e => exact hr.2
  · refine fun h => wp_post h (fun r τ hc hr => ?_)
    cases r with
    | ok a => exact hr
    | error e => exact ⟨hc, hr⟩

theorem wp_outcome_mapError {f : ε → ε'} {p : Act Op Resp M ε α} {Q : α → T → Prop}
    {R : ε' → T → Prop} (h : wp G H C p.run (outcome Q fun e => R (f e)) σ) :
    wp G H C (p.mapError f).run (outcome Q R) σ := by
  refine wp_bind.mpr (wp_post h fun r τ hc hr => ?_)
  cases r with
  | ok a => exact ⟨hc, hr⟩
  | error e => exact ⟨hc, hr⟩

theorem wp_outcome_attempt {p : Act Op Resp M ε α} {Q : Except ε α → T → Prop}
    {R : ε' → T → Prop}
    (h : wp G H C p.run (outcome (fun a => Q (.ok a)) fun e => Q (.error e)) σ) :
    wp G H C (p.attempt : Act Op Resp M ε' _).run (outcome Q R) σ := by
  refine wp_bind.mpr (wp_post h fun r τ hc hr => ?_)
  cases r with
  | ok a => exact ⟨hc, hr⟩
  | error e => exact ⟨hc, hr⟩

end Outcome

/-- **Precondition of a fallible program**: `Q` where it returns a value, `R`
where it ends in an error, `C` at every cut. -/
def wpE (F : Sem Op Resp S) (strict H : Prop) (C : S × M → Prop) (p : Act Op Resp M ε α)
    (Q : α → S × M → Prop) (R : ε → S × M → Prop) (σ : S × M) : Prop :=
  wp (memSem F strict) H C p.run (outcome Q R) σ

variable {F : Sem Op Resp S} {strict H : Prop} {C : S × M → Prop}

theorem wpE_iff {p : Act Op Resp M ε α} {Q : α → S × M → Prop} {R : ε → S × M → Prop} {σ : S × M} :
    wpE F strict H C p Q R σ ↔ wp (memSem F strict) H C p.run (outcome Q R) σ := Iff.rfl

theorem wpE_crash {p : Act Op Resp M ε α} {Q : α → S × M → Prop} {R : ε → S × M → Prop}
    {σ : S × M} (h : wpE F strict H C p Q R σ) : C σ := wp_crash h

theorem wpE_mono {p : Act Op Resp M ε α} {C' : S × M → Prop} {Q Q' : α → S × M → Prop}
    {R R' : ε → S × M → Prop} {σ : S × M} (h : wpE F strict H C p Q R σ)
    (hC : ∀ τ, C τ → C' τ) (hQ : ∀ a τ, C τ → Q a τ → Q' a τ)
    (hR : ∀ e τ, C τ → R e τ → R' e τ) : wpE F strict H C' p Q' R' σ :=
  wp_outcome_mono h hC hQ hR

theorem wpE_post {p : Act Op Resp M ε α} {Q Q' : α → S × M → Prop}
    {R R' : ε → S × M → Prop} {σ : S × M} (h : wpE F strict H C p Q R σ)
    (hQ : ∀ a τ, C τ → Q a τ → Q' a τ) (hR : ∀ e τ, C τ → R e τ → R' e τ) :
    wpE F strict H C p Q' R' σ :=
  wpE_mono h (fun _ h => h) hQ hR

theorem wpE_trivial (hF : ∀ o s, F.safe o s) {p : Act Op Resp M ε α} {Q : α → S × M → Prop}
    {R : ε → S × M → Prop} (hQ : ∀ a τ, Q a τ) (hR : ∀ e τ, R e τ) (σ : S × M) :
    wpE F strict True (fun _ => True) p Q R σ := by
  refine wp_post (wp_trivial (fun o τ => ?_) p.run σ) fun r τ _ _ => ?_
  · cases o with
    | io o => exact hF o τ.1
    | upd f => exact trivial
    | fits p dec => exact trivial
  · cases r with
    | ok a => exact hQ a τ
    | error e => exact hR e τ

theorem wpE_pure {a : α} {Q : α → S × M → Prop} {R : ε → S × M → Prop} {σ : S × M} :
    wpE F strict H C (pure a : Act Op Resp M ε α) Q R σ ↔ C σ ∧ Q a σ := Iff.rfl

theorem wpE_throw {e : ε} {Q : α → S × M → Prop} {R : ε → S × M → Prop} {σ : S × M} :
    wpE F strict H C (throw e : Act Op Resp M ε α) Q R σ ↔ C σ ∧ R e σ := Iff.rfl

theorem wpE_bind {p : Act Op Resp M ε α} {f : α → Act Op Resp M ε β}
    {Q : β → S × M → Prop} {R : ε → S × M → Prop} {σ : S × M} :
    wpE F strict H C (p >>= f) Q R σ ↔
      wpE F strict H C p (fun a τ => wpE F strict H C (f a) Q R τ) R σ :=
  wp_outcome_bind

theorem wpE_get {Q : M → S × M → Prop} {R : ε → S × M → Prop} {σ : S × M}
    (hC : C σ) (hQ : Q σ.2 σ) : wpE F strict H C Act.get Q R σ := by
  refine ⟨hC, trivial, ?_⟩
  rintro r τ ⟨rfl, rfl⟩
  exact ⟨hC, hQ⟩

theorem wpE_modifyGet {f : M → M} {Q : M → S × M → Prop} {R : ε → S × M → Prop} {σ : S × M}
    (hC : C σ) (hC' : C (σ.1, f σ.2)) (hQ : Q σ.2 (σ.1, f σ.2)) :
    wpE F strict H C (Act.modifyGet f) Q R σ := by
  refine ⟨hC, trivial, ?_⟩
  rintro r τ ⟨rfl, rfl⟩
  exact ⟨hC', hQ⟩

theorem wpE_modify {f : M → M} {Q : Unit → S × M → Prop} {R : ε → S × M → Prop} {σ : S × M}
    (hC : C σ) (hC' : C (σ.1, f σ.2)) (hQ : Q () (σ.1, f σ.2)) :
    wpE F strict H C (Act.modify f) Q R σ := by
  refine ⟨hC, trivial, ?_⟩
  rintro r τ ⟨rfl, rfl⟩
  exact ⟨hC', hQ⟩

theorem wpE_fits {p : Prop} [Decidable p] {Q : Unit → S × M → Prop} {R : ε → S × M → Prop} {σ : S × M}
    (hC : C σ) (hQ : (strict → p) → Q () σ) : wpE F strict H C (Act.fits p) Q R σ := by
  refine ⟨hC, trivial, ?_⟩
  rintro r τ ⟨hp, rfl⟩
  exact ⟨hC, hQ hp⟩

theorem wpE_hang {Q : α → S × M → Prop} {R : ε → S × M → Prop} {σ : S × M} (hC : C σ) (hH : H) :
    wpE F strict H C (Act.hang : Act Op Resp M ε α) Q R σ := ⟨hC, hH⟩

theorem wpE_mapError {f : ε → ε'} {p : Act Op Resp M ε α} {Q : α → S × M → Prop}
    {R : ε' → S × M → Prop} {σ : S × M}
    (h : wpE F strict H C p Q (fun e => R (f e)) σ) :
    wpE F strict H C (p.mapError f) Q R σ :=
  wp_outcome_mapError h

theorem wpE_attempt {p : Act Op Resp M ε α} {Q : Except ε α → S × M → Prop}
    {R : ε' → S × M → Prop} {σ : S × M}
    (h : wpE F strict H C p (fun a => Q (.ok a)) (fun e => Q (.error e)) σ) :
    wpE F strict H C (p.attempt : Act Op Resp M ε' _) Q R σ :=
  wp_outcome_attempt h

theorem wpE_ofExcept {r : Except ε α} {Q : α → S × M → Prop} {R : ε → S × M → Prop} {σ : S × M} :
    wpE F strict H C (Act.ofExcept r) Q R σ ↔ C σ ∧ outcome Q R r σ := Iff.rfl

theorem wpE_zoom (l : Part M N) {p : Act Op Resp N ε α} {Q : α → S × M → Prop}
    {R : ε → S × M → Prop} {s : S} {m : M}
    (h : wpE F strict H (fun τ => C (τ.1, l.set τ.2 m)) p (fun a τ => Q a (τ.1, l.set τ.2 m))
      (fun e τ => R e (τ.1, l.set τ.2 m)) (s, l.get m)) :
    wpE F strict H C (p.zoom l) Q R (s, m) := by
  have hz : wp (memSem F strict) H (fun τ => C (τ.1, l.set τ.2 m)) p.run
      (fun r τ => outcome Q R r (τ.1, l.set τ.2 m)) (s, l.get m) :=
    wp_post h fun r τ _ hr => by
      cases r with
      | ok a => exact hr
      | error e => exact hr
  have hw : wp (memSem F strict) H C (Prog.zoom l p.run) (outcome Q R) (s, l.set (l.get m) m) :=
    wp_zoom l hz
  rw [l.set_get] at hw
  exact hw

theorem wpE_scope {n : N} {p : Act Op Resp N ε α} {Q : α → S × M → Prop}
    {R : ε → S × M → Prop} {s : S} {m : M}
    (h : wpE F strict H (fun τ => C (τ.1, m)) p (fun a τ => Q a (τ.1, m))
      (fun e τ => R e (τ.1, m)) (s, n)) :
    wpE F strict H C (Act.scope n p) Q R (s, m) := by
  refine wp_scope (wp_post h fun r τ _ hr => ?_)
  cases r with
  | ok a => exact hr
  | error e => exact hr

end Rules

section Device

variable {Op : Type} {R : Op → Type} {S M ε : Type}
variable {F : Sem Op (fun o => Except ε (R o)) S} {strict H : Prop} {C : S × M → Prop}

theorem wpE_device {o : Op} {Q : R o → S × M → Prop} {E : ε → S × M → Prop} {s : S} {m : M}
    (hC : C (s, m)) (hsafe : F.safe o s)
    (hok : ∀ a s', F.step o s (.ok a) s' → C (s', m) ∧ Q a (s', m))
    (herr : ∀ e s', F.step o s (.error e) s' → C (s', m) ∧ E e (s', m)) :
    wpE F strict H C (Act.device o) Q E (s, m) := by
  refine ⟨hC, hsafe, ?_⟩
  rintro r ⟨s', m'⟩ ⟨hs, rfl⟩
  cases r with
  | ok a => exact hok a s' hs
  | error e => exact herr e s' hs

end Device

-- from here on only the rules say what `wpE` is; unfolding it would run the program
attribute [irreducible] wpE

end CrashLogic
