import Mathlib.Logic.Basic
import Mathlib.Tactic.Common

/-!
# Programs that can be cut short

A program is a finite tree of effects over a signature `Op`, `Resp`.  What an
effect does is not part of the tree: a `Sem` says, on a state type of its own
choice, in which states an effect has a meaning and which responses and next
states it may have.  So one tree is run by an exact machine, by the same machine
with failing effects, or by an abstraction of it.

A run that reaches a leaf `Completes`.  A run can also be cut after any number
of effects; `Cut` is the set of states that leaves behind, and it is what a power
loss or a killed process sees.  `wp` is the matching precondition: one assertion
`Q` for the end of the run and one assertion `C` for every state a cut can leave
(`wp_completes`, `wp_cut`).

`hang` is a leaf that is never left: a panic, a wait nobody ends, a loop that is
still running.  The parameter `H` of `wp` says what such a leaf is worth: `True`
for partial correctness, `False` for total correctness.
-/

namespace CrashLogic

/-- A program over the effects `Op`, whose effect `o` answers with a `Resp o`. -/
inductive Prog (Op : Type) (Resp : Op → Type) (α : Type) : Type
  | ret (a : α)
  | op (o : Op) (k : Resp o → Prog Op Resp α)
  | hang

namespace Prog

variable {Op : Type} {Resp : Op → Type} {α β γ : Type}

def bind : Prog Op Resp α → (α → Prog Op Resp β) → Prog Op Resp β
  | ret a, f => f a
  | op o k, f => op o (fun r => (k r).bind f)
  | hang, _ => hang

instance : Monad (Prog Op Resp) where
  pure := ret
  bind := bind

theorem bind_ret_right (p : Prog Op Resp α) : p.bind ret = p := by
  induction p with
  | ret a => rfl
  | op o k ih => exact congrArg (op o) (funext ih)
  | hang => rfl

theorem bind_assoc (p : Prog Op Resp α) (f : α → Prog Op Resp β) (g : β → Prog Op Resp γ) :
    (p.bind f).bind g = p.bind (fun a => (f a).bind g) := by
  induction p with
  | ret a => rfl
  | op o k ih => exact congrArg (op o) (funext ih)
  | hang => rfl

instance : LawfulMonad (Prog Op Resp) :=
  LawfulMonad.mk' _ (fun p => bind_ret_right p) (fun _ _ => rfl) bind_assoc

end Prog

/-- What the effects of a signature do to a state: `safe` where an effect has a
meaning, `step` for the answers and next states it may have. -/
structure Sem (Op : Type) (Resp : Op → Type) (S : Type) where
  safe : Op → S → Prop
  step : (o : Op) → S → Resp o → S → Prop

/-- A device that may answer anything: whatever a program does on it, it may do on
some device. -/
def Sem.anything (Op : Type) (Resp : Op → Type) : Sem Op Resp Unit where
  safe _ _ := True
  step _ _ _ _ := True

variable {Op : Type} {Resp : Op → Type} {S T α β : Type}

/-- The program can run from `s` to its end, answering `b` in state `s'`. -/
def Completes (F : Sem Op Resp S) : Prog Op Resp α → S → α → S → Prop
  | .ret a, s, b, s' => a = b ∧ s = s'
  | .op o k, s, b, s' => ∃ r s₁, F.step o s r s₁ ∧ Completes F (k r) s₁ b s'
  | .hang, _, _, _ => False

/-- The program, started in `s`, can be cut in state `s'`. -/
def Cut (F : Sem Op Resp S) : Prog Op Resp α → S → S → Prop
  | .ret _, s, s' => s' = s
  | .op o k, s, s' => s' = s ∨ ∃ r s₁, F.step o s r s₁ ∧ Cut F (k r) s₁ s'
  | .hang, s, s' => s' = s

/-- The program, started in `s`, can reach a point it never leaves. -/
def Hangs (F : Sem Op Resp S) : Prog Op Resp α → S → Prop
  | .ret _, _ => False
  | .op o k, s => ∃ r s₁, F.step o s r s₁ ∧ Hangs F (k r) s₁
  | .hang, _ => True

theorem Cut.refl (F : Sem Op Resp S) (p : Prog Op Resp α) (s : S) : Cut F p s s := by
  cases p with
  | ret a => rfl
  | op o k => exact Or.inl rfl
  | hang => rfl

/-- **Weakest precondition with a crash condition.**  `C` holds of every state
the run passes through, `Q` where it ends. -/
def wp (F : Sem Op Resp S) (H : Prop) (C : S → Prop) : Prog Op Resp α → (α → S → Prop) → S → Prop
  | .ret a, Q, s => C s ∧ Q a s
  | .op o k, Q, s => C s ∧ F.safe o s ∧ ∀ r s', F.step o s r s' → wp F H C (k r) Q s'
  | .hang, _, s => C s ∧ H

section Rules

variable {F : Sem Op Resp S} {H : Prop} {C : S → Prop}

theorem wp_crash {p : Prog Op Resp α} {Q : α → S → Prop} {s : S} (h : wp F H C p Q s) : C s := by
  cases p with
  | ret a => exact h.1
  | op o k => exact h.1
  | hang => exact h.1

theorem wp_mono {p : Prog Op Resp α} {C' : S → Prop} {Q Q' : α → S → Prop}
    (hC : ∀ s, C s → C' s) (hQ : ∀ a s, C s → Q a s → Q' a s) :
    ∀ {s : S}, wp F H C p Q s → wp F H C' p Q' s := by
  induction p with
  | ret a => exact fun h => ⟨hC _ h.1, hQ a _ h.1 h.2⟩
  | op o k ih => exact fun h => ⟨hC _ h.1, h.2.1, fun r s' hs => ih r (h.2.2 r s' hs)⟩
  | hang => exact fun h => ⟨hC _ h.1, h.2⟩

theorem wp_post {p : Prog Op Resp α} {Q Q' : α → S → Prop} {s : S} (h : wp F H C p Q s)
    (hQ : ∀ a s, C s → Q a s → Q' a s) : wp F H C p Q' s :=
  wp_mono (fun _ h => h) hQ h

theorem wp_bind {p : Prog Op Resp α} {f : α → Prog Op Resp β} {Q : β → S → Prop} :
    ∀ {s : S}, wp F H C (p >>= f) Q s ↔ wp F H C p (fun a s' => wp F H C (f a) Q s') s := by
  induction p with
  | ret a => exact fun {s} => ⟨fun h => ⟨wp_crash h, h⟩, fun h => h.2⟩
  | op o k ih =>
    intro s
    constructor
    · exact fun h => ⟨h.1, h.2.1, fun r s' hs => ih r |>.mp (h.2.2 r s' hs)⟩
    · exact fun h => ⟨h.1, h.2.1, fun r s' hs => ih r |>.mpr (h.2.2 r s' hs)⟩
  | hang => exact Iff.rfl

/-- A run of a program that has its precondition ends in the postcondition. -/
theorem wp_completes {p : Prog Op Resp α} {Q : α → S → Prop} {b : α} {s' : S} :
    ∀ {s : S}, wp F H C p Q s → Completes F p s b s' → C s' ∧ Q b s' := by
  induction p with
  | ret a =>
    rintro s h ⟨rfl, rfl⟩
    exact h
  | op o k ih =>
    rintro s h ⟨r, s₁, hs, hr⟩
    exact ih r (h.2.2 r s₁ hs) hr
  | hang => exact fun _ h => h.elim

/-- However the run is cut, it leaves the crash condition. -/
theorem wp_cut {p : Prog Op Resp α} {Q : α → S → Prop} {s' : S} :
    ∀ {s : S}, wp F H C p Q s → Cut F p s s' → C s' := by
  induction p with
  | ret a => exact fun h hs => hs ▸ h.1
  | op o k ih =>
    rintro s h (rfl | ⟨r, s₁, hs, hr⟩)
    · exact h.1
    · exact ih r (h.2.2 r s₁ hs) hr
  | hang => exact fun h hs => hs ▸ h.1

/-- Total correctness leaves no way to hang. -/
theorem wp_not_hangs {p : Prog Op Resp α} {Q : α → S → Prop} :
    ∀ {s : S}, wp F False C p Q s → ¬ Hangs F p s := by
  induction p with
  | ret a => exact fun _ h => h
  | op o k ih =>
    rintro s h ⟨r, s₁, hs, hr⟩
    exact ih r (h.2.2 r s₁ hs) hr
  | hang => exact fun h _ => h.2

/-- Where every effect has a meaning, every program runs to some end. -/
theorem wp_trivial (hF : ∀ o s, F.safe o s) (p : Prog Op Resp α) :
    ∀ s : S, wp F True (fun _ => True) p (fun _ _ => True) s := by
  induction p with
  | ret a => exact fun _ => ⟨trivial, trivial⟩
  | op o k ih => exact fun s => ⟨trivial, hF o s, fun r s' _ => ih r s'⟩
  | hang => exact fun _ => ⟨trivial, trivial⟩

end Rules

/-! ### Simulation

A semantics on `S` is simulated by one on `T` through an abstraction
`abs : S → T` when every step of the first is a step of the second, as long as
the second one gives the effect a meaning.  Preconditions proved on `T` then hold
on `S`. -/

/-- `G` simulates `F` through `abs`, on the states that satisfy `inv`. -/
structure Simulates (F : Sem Op Resp S) (G : Sem Op Resp T) (inv : S → Prop) (abs : S → T) :
    Prop where
  safe : ∀ o s, inv s → G.safe o (abs s) → F.safe o s
  step : ∀ o s r s', inv s → G.safe o (abs s) → F.step o s r s' →
    inv s' ∧ G.step o (abs s) r (abs s')

theorem wp_of_simulates {F : Sem Op Resp S} {G : Sem Op Resp T} {inv : S → Prop} {abs : S → T}
    (hsim : Simulates F G inv abs) {H : Prop} {C : T → Prop} {p : Prog Op Resp α}
    {Q : α → T → Prop} :
    ∀ {s : S}, inv s → wp G H C p Q (abs s) →
      wp F H (fun s => inv s ∧ C (abs s)) p (fun a s => Q a (abs s)) s := by
  induction p with
  | ret a => exact fun hi h => ⟨⟨hi, h.1⟩, h.2⟩
  | op o k ih =>
    intro s hi h
    refine ⟨⟨hi, h.1⟩, hsim.safe o s hi h.2.1, fun r s' hs => ?_⟩
    obtain ⟨hi', hs'⟩ := hsim.step o s r s' hi h.2.1 hs
    exact ih r hi' (h.2.2 r _ hs')
  | hang => exact fun hi h => ⟨⟨hi, h.1⟩, h.2⟩

/-- A run is simulated by a run, where every effect has a meaning. -/
theorem completes_of_simulates {F : Sem Op Resp S} {G : Sem Op Resp T} {inv : S → Prop}
    {abs : S → T} (hsim : Simulates F G inv abs) (hsafe : ∀ o t, G.safe o t) {p : Prog Op Resp α}
    {a : α} {s' : S} :
    ∀ {s : S}, inv s → Completes F p s a s' → Completes G p (abs s) a (abs s') := by
  induction p with
  | ret b =>
    rintro s - ⟨rfl, rfl⟩
    exact ⟨rfl, rfl⟩
  | op o k ih =>
    rintro s hi ⟨r, s₁, hs, h⟩
    obtain ⟨hi', hs'⟩ := hsim.step o s r s₁ hi (hsafe o _) hs
    exact ⟨r, abs s₁, hs', ih r hi' h⟩
  | hang => exact fun _ h => h.elim

/-! ### A machine that runs

`eval` runs a program on a function for the effects; it is one of the runs of
every semantics whose steps include the function's. -/

/-- Run the program on a machine; `none` when it hangs. -/
def eval (m : (o : Op) → S → Resp o × S) : Prog Op Resp α → S → Option (α × S)
  | .ret a, s => some (a, s)
  | .op o k, s => eval m (k (m o s).1) (m o s).2
  | .hang, _ => none

theorem eval_bind (m : (o : Op) → S → Resp o × S) (p : Prog Op Resp α)
    (f : α → Prog Op Resp β) :
    ∀ s : S, eval m (p >>= f) s = (eval m p s).bind fun x => eval m (f x.1) x.2 := by
  induction p with
  | ret a => exact fun _ => rfl
  | op o k ih => exact fun s => ih (m o s).1 (m o s).2
  | hang => exact fun _ => rfl

theorem completes_of_eval {F : Sem Op Resp S} {m : (o : Op) → S → Resp o × S}
    (hm : ∀ o s, F.step o s (m o s).1 (m o s).2) {p : Prog Op Resp α} {b : α} {s' : S} :
    ∀ {s : S}, eval m p s = some (b, s') → Completes F p s b s' := by
  induction p with
  | ret a =>
    intro s h
    obtain ⟨rfl, rfl⟩ := Prod.mk.inj (Option.some.inj h)
    exact ⟨rfl, rfl⟩
  | op o k ih => exact fun {s} h => ⟨_, _, hm o s, ih (m o s).1 h⟩
  | hang => intro s h; cases h

/-- Where the machine has no answer, the program hangs. -/
theorem hangs_of_eval {F : Sem Op Resp S} {m : (o : Op) → S → Resp o × S}
    (hm : ∀ o s, F.step o s (m o s).1 (m o s).2) {p : Prog Op Resp α} :
    ∀ {s : S}, eval m p s = none → Hangs F p s := by
  induction p with
  | ret a => intro s h; cases h
  | op o k ih => exact fun {s} h => ⟨_, _, hm o s, ih (m o s).1 h⟩
  | hang => exact fun _ => trivial

/-- The state behind the first `n` effects of the run. -/
def Prog.cutAt (m : (o : Op) → S → Resp o × S) : Nat → Prog Op Resp α → S → S
  | n + 1, .op o k, s => Prog.cutAt m n (k (m o s).1) (m o s).2
  | _, _, s => s

theorem cut_cutAt {F : Sem Op Resp S} {m : (o : Op) → S → Resp o × S}
    (hm : ∀ o s, F.step o s (m o s).1 (m o s).2) (n : Nat) (p : Prog Op Resp α) :
    ∀ s, Cut F p s (p.cutAt m n s) := by
  induction n generalizing p with
  | zero => exact fun s => Cut.refl F p s
  | succ n ih =>
    intro s
    cases p with
    | ret a => rfl
    | op o k => exact Or.inr ⟨_, _, hm o s, ih (k (m o s).1) (m o s).2⟩
    | hang => rfl

/-! ### A machine that breaks down

One machine does what another does until it breaks down, and from then on nothing that
matters.  So what is left of its run is what a cut of the other one leaves.  A cut can be
told by how many effects have counted before it. -/

section BreaksDown

variable {F : Sem Op Resp S} {m : (o : Op) → S → Resp o × S} {m' : (o : Op) → T → Resp o × T}

theorem eval_keeps {J : T → Prop} (hJ : ∀ o t, J t → J (m' o t).2) {p : Prog Op Resp α} {a : α}
    {t' : T} : ∀ {t : T}, J t → eval m' p t = some (a, t') → J t' := by
  induction p with
  | ret b =>
    intro t ht h
    obtain ⟨-, rfl⟩ := Prod.mk.inj (Option.some.inj h)
    exact ht
  | op o k ih => exact fun {t} ht h => ih _ (hJ o t ht) h
  | hang => intro t _ h; cases h

/-- **A run that breaks down** leaves what a cut of the whole run leaves. -/
theorem eval_until {live dead : S → T → Prop} (hm : ∀ o s, F.step o s (m o s).1 (m o s).2)
    (hlive : ∀ o s t, live s t → (m' o t).1 = (m o s).1 ∧
      (live (m o s).2 (m' o t).2 ∨ dead (m o s).2 (m' o t).2))
    (hdead : ∀ o s t, dead s t → dead s (m' o t).2) {p : Prog Op Resp α} {a : α} {t' : T} :
    ∀ {s : S} {t : T}, live s t → eval m' p t = some (a, t') →
      (∃ s', eval m p s = some (a, s') ∧ live s' t') ∨ ∃ s', Cut F p s s' ∧ dead s' t' := by
  induction p with
  | ret b =>
    intro s t hst h
    obtain ⟨rfl, rfl⟩ := Prod.mk.inj (Option.some.inj h)
    exact Or.inl ⟨s, rfl, hst⟩
  | op o k ih =>
    intro s t hst h
    obtain ⟨hr, hnext⟩ := hlive o s t hst
    have h : eval m' (k (m o s).1) (m' o t).2 = some (a, t') := by
      rw [← hr]
      exact h
    rcases hnext with hnext | hnext
    · refine (ih _ hnext h).imp_right ?_
      rintro ⟨s', hcut, hd⟩
      exact ⟨s', Or.inr ⟨_, _, hm o s, hcut⟩, hd⟩
    · exact Or.inr ⟨_, Or.inr ⟨_, _, hm o s, Cut.refl ..⟩,
        eval_keeps (fun o t => hdead o _ t) hnext h⟩
  | hang => intro s t _ h; cases h

variable {D : Type} {part : S → D} {count : D → Nat} {I : S → Prop}

/-- An effect that changes the part counts. -/
def Counted (m : (o : Op) → S → Resp o × S) (I : S → Prop) (part : S → D) (count : D → Nat) :
    Prop :=
  ∀ o s, I s → I (m o s).2 ∧
    (part (m o s).2 = part s ∨ count (part (m o s).2) = count (part s) + 1)

theorem Counted.le (hc : Counted m I part count) {o : Op} {s : S} (hs : I s) :
    count (part s) ≤ count (part (m o s).2) := by
  rcases (hc o s hs).2 with h | h
  · exact Nat.le_of_eq (congrArg count h.symm)
  · omega

variable (hF : ∀ o s r s', F.step o s r s' → r = (m o s).1 ∧ s' = (m o s).2)
include hF

theorem Cut.count_ge (hc : Counted m I part count) {p : Prog Op Resp α} {u : S} :
    ∀ {s : S}, I s → Cut F p s u → count (part s) ≤ count (part u) := by
  induction p with
  | ret a =>
    rintro s _ rfl
    exact Nat.le_refl _
  | op o k ih =>
    rintro s hs (rfl | ⟨r, s₁, hstep, h⟩)
    · exact Nat.le_refl _
    · obtain ⟨rfl, rfl⟩ := hF o s r s₁ hstep
      exact Nat.le_trans (hc.le hs) (ih _ (hc o s hs).1 h)
  | hang =>
    rintro s _ rfl
    exact Nat.le_refl _

theorem Cut.count_le (hc : Counted m I part count) {p : Prog Op Resp α} {a : α} {u s' : S} :
    ∀ {s : S}, I s → Cut F p s u → eval m p s = some (a, s') →
      count (part u) ≤ count (part s') := by
  have hend : ∀ {q : Prog Op Resp α} {s : S}, I s → eval m q s = some (a, s') →
      count (part s) ≤ count (part s') := fun {q s} hs h =>
    (eval_keeps (J := fun t => I t ∧ count (part s) ≤ count (part t))
      (fun o t ht => ⟨(hc o t ht.1).1, Nat.le_trans ht.2 (hc.le ht.1)⟩) ⟨hs, Nat.le_refl _⟩ h).2
  induction p with
  | ret b =>
    rintro s hs rfl h
    exact hend hs h
  | op o k ih =>
    rintro s hs (rfl | ⟨r, s₁, hstep, hcut⟩) h
    · exact hend hs h
    · obtain ⟨rfl, rfl⟩ := hF o s r s₁ hstep
      exact ih _ (hc o s hs).1 hcut h
  | hang => intro s _ _ h; cases h

/-- **A cut is told by its count.** -/
theorem Cut.unique (hc : Counted m I part count) {p : Prog Op Resp α} :
    ∀ {s u v : S}, I s → Cut F p s u → Cut F p s v → count (part u) = count (part v) →
      part u = part v := by
  have hfirst : ∀ {o : Op} {k : Resp o → Prog Op Resp α} {s w : S}, I s →
      Cut F (k (m o s).1) (m o s).2 w → count (part s) = count (part w) →
      part (m o s).2 = part s := by
    intro o k s w hs h he
    rcases (hc o s hs).2 with hsame | hmore
    · exact hsame
    · have hge := Cut.count_ge hF hc (hc o s hs).1 h
      omega
  induction p with
  | ret a =>
    rintro s _ _ _ rfl rfl _
    rfl
  | op o k ih =>
    intro s u v hs hu hv he
    have hnext : I (m o s).2 := (hc o s hs).1
    rcases hu with rfl | ⟨r, s₁, hstep, hu⟩
    · rcases hv with rfl | ⟨r, s₁, hstep, hv⟩
      · rfl
      · obtain ⟨rfl, rfl⟩ := hF o u r s₁ hstep
        have hsame := hfirst hs hv he
        have he' : count (part (m o u).2) = count (part v) := by rw [hsame, he]
        exact hsame.symm.trans (ih _ hnext (Cut.refl ..) hv he')
    · obtain ⟨rfl, rfl⟩ := hF o s r s₁ hstep
      rcases hv with rfl | ⟨r, s₁, hstep, hv⟩
      · have hsame := hfirst hs hu he.symm
        rw [← hsame]
        exact ih _ hnext hu (Cut.refl ..) (by rw [hsame, he])
      · obtain ⟨rfl, rfl⟩ := hF o s r s₁ hstep
        exact ih _ hnext hu hv he
  | hang =>
    rintro s _ _ _ rfl rfl _
    rfl

end BreaksDown

end CrashLogic
