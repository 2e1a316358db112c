import AccretionDb.Lib.Layers

/-!
# Reading a store that goes on

A reader looks at the memory first and at the shelf later.  Between the two looks values
are written, and layers go from the memory to the shelf.  `H n` is the history at the
instant `n`; histories only grow.

`AtInstant H n B` says that the shelf is the store as it was at some instant up to `n`, and
`Instants` that it stays so when the layers in memory follow, the lowest first.  What the
reader then puts together answers for one instant between its two looks (`two_looks`), but
for keys whose deletion was dropped in between: there it may be what the first look saw.
-/

namespace CrashLogic

open Stamped

section Instants

variable {K V X : Type} [Stamped V X]

/-! ### One key -/

/-- What the history says of a key. -/
def MeansAt (H : History K V) (k : K) (x : Option X) : Prop :=
  (∀ v, ¬ H k v) ∧ x = none ∨ ∃ v, Newest H k v ∧ payload v = x

theorem Answer.meansAt {H : History K V} {k : K} {o : Option V} (h : Answer H k o) :
    MeansAt H k (o.bind payload) := by
  cases h with
  | @found v h => exact Or.inr ⟨v, h, rfl⟩
  | never h => exact Or.inl ⟨h, rfl⟩
  | @dropped v h hd => exact Or.inr ⟨v, h, hd⟩

/-! ### Shelves of an instant -/

/-- A part of the history that has the newest value of every key. -/
structure Reflects (B H : History K V) : Prop where
  le : B ≤ H
  dominates : ∀ k, Dominates B H k

theorem Reflects.answer {B H : History K V} (h : Reflects B H) {k : K} {o : Option V}
    (ha : Answer B k o) : Answer H k o := ha.lift (h.le k) (h.dominates k)

/-- The shelf is the store as it was at an instant up to `n`, or has nothing that was not
there at the first. -/
def AtInstant (H : Nat → History K V) (n : Nat) (B : History K V) : Prop :=
  B ≤ H 0 ∨ ∃ m ≤ n, Reflects B (H m)

/-- So it is when the layers follow that are in memory, the lowest first. -/
def Instants (H : Nat → History K V) (n : Nat) : History K V → List (Layer K V) → Prop
  | B, [] => AtInstant H n B
  | B, f :: fs => AtInstant H n B ∧ Instants H n (B ⊔ graph f) fs

/-- What is on the shelf when all of the layers are. -/
def piled (B : History K V) (fs : List (Layer K V)) : History K V :=
  fs.foldl (fun B f => B ⊔ graph f) B

variable {H H' : Nat → History K V} {m n n' : Nat} {B : History K V} {f : Layer K V}
variable {fs : List (Layer K V)}

omit [Stamped V X] in
theorem mem_piled : ∀ {B : History K V} {k : K} {v : V},
    piled B fs k v ↔ B k v ∨ ∃ f ∈ fs, f k = some v := by
  induction fs with
  | nil => exact ⟨Or.inl, fun h => h.resolve_right fun ⟨_, hf, _⟩ => List.not_mem_nil hf⟩
  | cons f fs ih =>
    intro B k v
    show piled (B ⊔ graph f) fs k v ↔ _
    rw [ih]
    constructor
    · rintro ((hB | hf) | ⟨g, hg, hv⟩)
      · exact Or.inl hB
      · exact Or.inr ⟨f, List.mem_cons_self, hf⟩
      · exact Or.inr ⟨g, List.mem_cons_of_mem f hg, hv⟩
    · rintro (hB | ⟨g, hg, hv⟩)
      · exact Or.inl (Or.inl hB)
      · rcases List.mem_cons.mp hg with rfl | hg
        · exact Or.inl (Or.inr hv)
        · exact Or.inr ⟨g, hg, hv⟩

/-- What was true at an instant is true later. -/
theorem AtInstant.extend (h : AtInstant H n B) (hH : ∀ m ≤ n, H' m = H m) (hn : n ≤ n') :
    AtInstant H' n' B := by
  rcases h with h | ⟨m, hm, h⟩
  · left
    rwa [hH 0 (Nat.zero_le n)]
  · refine Or.inr ⟨m, hm.trans hn, ?_⟩
    rwa [hH m hm]

namespace Instants

theorem head (h : Instants H n B fs) : AtInstant H n B := by
  cases fs with
  | nil => exact h
  | cons f fs => exact h.1

theorem extend (hH : ∀ m ≤ n, H' m = H m) (hn : n ≤ n') : ∀ {B : History K V},
    Instants H n B fs → Instants H' n' B fs := by
  induction fs with
  | nil => exact fun h => AtInstant.extend h hH hn
  | cons f fs ih => exact fun h => ⟨h.1.extend hH hn, ih h.2⟩

/-- Nothing is there that was not at the first instant. -/
theorem of_le : ∀ {B : History K V}, B ≤ H 0 → (∀ f ∈ fs, graph f ≤ H 0) →
    Instants H n B fs := by
  induction fs with
  | nil => exact fun hB _ => Or.inl hB
  | cons f fs ih =>
    exact fun hB hfs => ⟨Or.inl hB, ih (sup_le hB (hfs f List.mem_cons_self)) fun g hg =>
      hfs g (List.mem_cons_of_mem f hg)⟩

/-- The lowest layer goes to the shelf, and is still in memory. -/
theorem install (h : Instants H n B (f :: fs)) : Instants H n (B ⊔ graph f) (f :: fs) := by
  refine ⟨h.2.head, ?_⟩
  rw [sup_assoc, sup_idem]
  exact h.2

theorem discard (h : Instants H n B (f :: fs)) (hf : graph f ≤ B) : Instants H n B fs := by
  have h' := h.2
  rwa [sup_eq_left.mpr hf] at h'

theorem concat (hlast : AtInstant H n (piled B (fs ++ [f]))) (h : Instants H n B fs) :
    Instants H n B (fs ++ [f]) := by
  induction fs generalizing B with
  | nil => exact ⟨h, hlast⟩
  | cons g fs ih => exact ⟨h.1, ih hlast h.2⟩

end Instants

/-- All layers of the memory, on the shelf, make up the store. -/
theorem Stacked.reflects {H B : History K V} {b : Nat} {ms ts : List (Layer K V)}
    (h : Stacked H B b ms ts) (hfs : ∀ l, l ∈ ms ↔ l ∈ fs) : Reflects (piled B fs) H where
  le k v hv := by
    rcases mem_piled.mp hv with hv | ⟨l, hl, hv⟩
    · exact h.le k v hv
    · exact h.within l ((hfs l).mpr hl) k v hv
  dominates k v hv := by
    cases hk : lookup ms k with
    | none =>
      obtain ⟨w, hw, hvw⟩ := h.rest k hk v hv
      exact ⟨w, mem_piled.mpr (Or.inl hw), hvw⟩
    | some w =>
      obtain ⟨l, hl, hlw⟩ := exists_of_lookup hk
      exact ⟨w, mem_piled.mpr (Or.inr ⟨l, (hfs l).mp hl, hlw⟩), (h.newest k w hk).max v hv⟩

/-- **The top layer is frozen**: now the store is what the shelf will be. -/
theorem Instants.freeze {b : Nat} {a : Layer K V} {ts : List (Layer K V)}
    (h : Instants H n B fs) (hs : Stacked (H n) B b (a :: fs.reverse) ts) :
    Instants H n B (fs ++ [a]) :=
  .concat (Or.inr ⟨n, Nat.le_refl n, hs.reflects fun l => by
    rw [List.mem_cons, List.mem_reverse, List.mem_append, List.mem_singleton, or_comm]⟩) h

/-! ### Two looks -/

/-- Seen from an instant `m`, the shelf has nothing newer or is that of a later one. -/
theorem AtInstant.cases (h : AtInstant H n B) (hmono : Monotone H) (m : Nat) :
    B ≤ H m ∨ ∃ p, m ≤ p ∧ p ≤ n ∧ Reflects B (H p) := by
  rcases h with h | ⟨p, hp, h⟩
  · exact Or.inl (h.trans (hmono (Nat.zero_le m)))
  · rcases Nat.le_total m p with hmp | hpm
    · exact Or.inr ⟨p, hmp, hp, h⟩
    · exact Or.inl (h.le.trans (hmono hpm))

/-- **The shelf answers** for a key that the memory did not have. -/
theorem AtInstant.answer (h : AtInstant H n B) (hmono : Monotone H) (hmn : m ≤ n) {k : K}
    (hdom : Dominates B (H m) k) {o : Option V} (ho : Answer B k o) :
    ∃ p, m ≤ p ∧ p ≤ n ∧ Answer (H p) k o := by
  rcases h.cases hmono m with hle | ⟨p, hmp, hpn, hr⟩
  · exact ⟨m, Nat.le_refl m, hmn, ho.lift (hle k) hdom⟩
  · exact ⟨p, hmp, hpn, hr.answer ho⟩

/-- The memory as the first look saw it: it had the newest value of every key, or the shelf
has it. -/
structure Looked (H B : History K V) (x : Layer K V) : Prop where
  newest : ∀ k v, x k = some v → Newest H k v
  rest : ∀ k, x k = none → Dominates B H k

theorem Looked.mono {H B B' : History K V} {x : Layer K V} (h : Looked H B x) (hle : B ≤ B') :
    Looked H B' x where
  newest := h.newest
  rest k hk v hv := by
    obtain ⟨w, hw, hvw⟩ := h.rest k hk v hv
    exact ⟨w, hle k w hw, hvw⟩

theorem Stacked.looked {H B : History K V} {b : Nat} {ms ts : List (Layer K V)}
    (h : Stacked H B b ms ts) : Looked H B (lookup ms) := ⟨h.newest, h.rest⟩

/-- The later of what the two looks saw. -/
structure Picks (x y o : Option V) : Prop where
  seen : ∀ v, o = some v → x = some v ∨ y = some v
  latest : ∀ w, x = some w ∨ y = some w → ∃ v, o = some v ∧ stamp w ≤ stamp v

theorem Picks.eq_none {x y o : Option V} (h : Picks x y o) (hx : x = none) (hy : y = none) :
    o = none := by
  cases o with
  | none => rfl
  | some v =>
    rcases h.seen v rfl with he | he
    · rw [hx] at he
      cases he
    · rw [hy] at he
      cases he

/-- A value that is no older than what both looks saw is picked. -/
theorem Picks.eq_some {x y o : Option V} (h : Picks x y o) {v : V} (hv : x = some v ∨ y = some v)
    (hx : ∀ w, x = some w → Older w v) (hy : ∀ w, y = some w → Older w v) : o = some v := by
  obtain ⟨u, hu, hle⟩ := h.latest v hv
  have hold : Older u v := (h.seen u hu).elim (hx u) (hy u)
  rw [hu, hold.eq_of_le hle]

/-- **What two looks make up** answers for one instant between them.  Only a key that was
deleted by that instant, and of which the shelf has nothing any more, may show what it was at
the first look. -/
theorem two_looks (h : AtInstant H n B) (hmono : Monotone H) (hmn : m ≤ n)
    {x y : Layer K V} (hx : Looked (H m) B x) (hy : ∀ k, Answer B k (y k)) :
    ∃ p, m ≤ p ∧ p ≤ n ∧ ∀ k o, Picks (x k) (y k) o → Answer (H p) k o ∨
      Answer (H m) k o ∧ MeansAt (H p) k none ∧ y k = none := by
  rcases h.cases hmono m with hle | ⟨p, hmp, hpn, hr⟩
  · -- the shelf has nothing that is newer than the first look
    refine ⟨m, Nat.le_refl m, hmn, fun k o ho => Or.inl ?_⟩
    cases hxk : x k with
    | some v =>
      have hn := hx.newest k v hxk
      rw [ho.eq_some (Or.inl hxk) (fun w hw => ?_) fun w hw => ?_]
      · exact .found hn
      · rw [hxk] at hw
        exact Or.inr (Option.some.inj hw).symm
      · have ha := hy k
        rw [hw] at ha
        cases ha with
        | found hw => exact hn.max w (hle k w hw.mem)
    | none =>
      have hoy : o = y k := by
        cases hyk : y k with
        | none => exact ho.eq_none hxk hyk
        | some w =>
          refine ho.eq_some (Or.inr hyk) (fun u hu => ?_) fun u hu => ?_
          · rw [hxk] at hu
            cases hu
          · rw [hyk] at hu
            exact Or.inr (Option.some.inj hu).symm
      rw [hoy]
      exact (hy k).lift (hle k) (hx.rest k hxk)
  · -- the shelf is the store of a later instant
    refine ⟨p, hmp, hpn, fun k o ho => ?_⟩
    have hin : ∀ v, x k = some v → H p k v := fun v hv => hmono hmp k v (hx.newest k v hv).mem
    have ha := hr.answer (hy k)
    cases hyk : y k with
    | some w =>
      rw [hyk] at ha
      cases ha with
      | found hn =>
        refine Or.inl ?_
        rw [ho.eq_some (Or.inr hyk) (fun v hv => hn.max v (hin v hv)) fun u hu => ?_]
        · exact .found hn
        · rw [hyk] at hu
          exact Or.inr (Option.some.inj hu).symm
    | none =>
      rw [hyk] at ha
      cases hxk : x k with
      | none =>
        rw [ho.eq_none hxk hyk]
        exact Or.inl ha
      | some v =>
        have hov : o = some v := by
          refine ho.eq_some (Or.inl hxk) (fun w hw => ?_) fun w hw => ?_
          · rw [hxk] at hw
            exact Or.inr (Option.some.inj hw).symm
          · rw [hyk] at hw
            cases hw
        rw [hov]
        exact Or.inr ⟨.found (hx.newest k v hxk), ha.meansAt, rfl⟩

end Instants

end CrashLogic
