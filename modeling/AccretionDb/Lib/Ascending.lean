import AccretionDb.Lib.Bytes
import AccretionDb.Lib.Layers
import Mathlib.Order.Defs.LinearOrder

/-!
# Keyed lists in ascending order

A sorted run of a store is a list of pairs with strictly ascending keys.  As a
layer it is `layerOf`: the value beside the key.  Every key stands there at most
once, so membership and lookup are the same (`layerOf_eq_some`).

Keys are byte strings in lexicographic order.
-/

namespace CrashLogic

/-! ### Byte strings in order -/

theorem compare_eq_lt_iff (a : Bytes) : ∀ b : Bytes, compare a b = .lt ↔ a < b := by
  induction a with
  | nil =>
    intro b
    cases b with
    | nil => simp
    | cons y b => simp [compare, List.compareLex]
  | cons x a ih =>
    intro b
    cases b with
    | nil => simp [compare, List.compareLex]
    | cons y b =>
      rw [List.cons_lt_cons_iff, ← ih]
      simp only [compare, List.compareLex_cons_cons, Ordering.then_eq_lt, compareOfLessAndEq]
      split
      · simp [*]
      · split <;> simp [*]

/-- Byte strings in lexicographic order. -/
instance : LinearOrder Bytes where
  le_refl := List.le_refl
  le_trans _ _ _ := List.le_trans
  le_antisymm _ _ := List.le_antisymm
  le_total := List.le_total
  lt_iff_le_not_ge a b := by
    rw [List.not_le]
    exact ⟨fun h => ⟨List.le_of_lt h, h⟩, fun h => h.2⟩
  toDecidableLE := inferInstance
  toDecidableEq := inferInstance
  toDecidableLT := inferInstance
  compare := compare
  compare_eq_compareOfLessAndEq a b := by
    rw [compareOfLessAndEq]
    by_cases hlt : a < b
    · rw [if_pos hlt]
      exact (compare_eq_lt_iff a b).mpr hlt
    · rw [if_neg hlt]
      by_cases heq : a = b
      · rw [if_pos heq, heq]
        exact Std.ReflCmp.compare_self
      · rw [if_neg heq]
        cases hc : compare a b with
        | lt => exact absurd ((compare_eq_lt_iff a b).mp hc) hlt
        | eq => exact absurd (Std.LawfulEqCmp.eq_of_compare hc) heq
        | gt => rfl

/-! ### Ascending lists -/

section Ascending

variable {K V : Type} [LinearOrder K]

/-- The keys come strictly ascending. -/
def Ascending (es : List (K × V)) : Prop := es.Pairwise (·.1 < ·.1)

instance (es : List (K × V)) : Decidable (Ascending es) :=
  inferInstanceAs (Decidable (es.Pairwise (·.1 < ·.1)))

/-- The value beside a key. -/
def layerOf (es : List (K × V)) : Layer K V := fun k =>
  (es.find? fun e => decide (e.1 = k)).map Prod.snd

@[simp] theorem layerOf_nil (k : K) : layerOf ([] : List (K × V)) k = none := rfl

theorem layerOf_cons (e : K × V) (es : List (K × V)) (k : K) :
    layerOf (e :: es) k = if e.1 = k then some e.2 else layerOf es k := by
  rw [layerOf, List.find?_cons]
  by_cases he : e.1 = k
  · rw [if_pos he, decide_eq_true he]
    rfl
  · rw [if_neg he, decide_eq_false he]
    rfl

theorem mem_of_layerOf {es : List (K × V)} {k : K} {v : V} (h : layerOf es k = some v) :
    (k, v) ∈ es := by
  rw [layerOf, Option.map_eq_some_iff] at h
  obtain ⟨e, he, rfl⟩ := h
  have hk := List.find?_some he
  have hk : e.1 = k := of_decide_eq_true hk
  subst hk
  exact List.mem_of_find?_eq_some he

theorem layerOf_eq_none {es : List (K × V)} {k : K} :
    layerOf es k = none ↔ ∀ e ∈ es, e.1 ≠ k := by
  rw [layerOf, Option.map_eq_none_iff, List.find?_eq_none]
  simp only [decide_eq_true_eq, ne_eq]

/-- Dropping keys restricts the layer. -/
theorem layerOf_filter_key (es : List (K × V)) (p : K → Bool) :
    layerOf (es.filter fun e => p e.1) = restrict p (layerOf es) := by
  funext k
  induction es with
  | nil => exact (ite_self _).symm
  | cons e es ih =>
    rw [List.filter_cons]
    by_cases hp : p e.1 = true
    · rw [if_pos hp, layerOf_cons, ih, restrict, restrict, layerOf_cons]
      by_cases he : e.1 = k
      · subst he
        rw [if_pos rfl, if_pos hp, if_pos rfl]
      · rw [if_neg he, if_neg he]
    · rw [if_neg hp, ih, restrict, restrict, layerOf_cons]
      by_cases he : e.1 = k
      · subst he
        rw [if_neg hp, if_neg hp]
      · rw [if_neg he]

namespace Ascending

variable {es : List (K × V)}

theorem cons {e : K × V} (h : Ascending (e :: es)) : (∀ x ∈ es, e.1 < x.1) ∧ Ascending es :=
  List.pairwise_cons.mp h

theorem eq_of_mem (h : Ascending es) {k : K} {v w : V} (hv : (k, v) ∈ es) (hw : (k, w) ∈ es) :
    v = w := by
  induction es with
  | nil => cases hv
  | cons e es ih =>
    obtain ⟨hlt, hes⟩ := h.cons
    rcases List.mem_cons.mp hv with rfl | hv'
    · rcases List.mem_cons.mp hw with hw' | hw'
      · exact (Prod.mk.inj hw').2.symm
      · exact absurd (hlt (k, w) hw') (lt_irrefl k)
    · rcases List.mem_cons.mp hw with rfl | hw'
      · exact absurd (hlt (k, v) hv') (lt_irrefl k)
      · exact ih hes hv' hw'

/-- **Membership is lookup.** -/
theorem layerOf_eq_some (h : Ascending es) {k : K} {v : V} :
    layerOf es k = some v ↔ (k, v) ∈ es := by
  refine ⟨mem_of_layerOf, fun hm => ?_⟩
  cases hl : layerOf es k with
  | none => exact absurd rfl (layerOf_eq_none.mp hl (k, v) hm)
  | some w => rw [h.eq_of_mem hm (mem_of_layerOf hl)]

theorem filter (h : Ascending es) (p : K × V → Bool) : Ascending (es.filter p) :=
  List.Pairwise.filter p h

/-- Dropping the entries with a bad value drops the bad answers. -/
theorem layerOf_filter (h : Ascending es) (p : V → Bool) (k : K) :
    layerOf (es.filter fun e => p e.2) k = (layerOf es k).filter p := by
  cases hl : layerOf es k with
  | none =>
    refine layerOf_eq_none.mpr fun e he => ?_
    exact layerOf_eq_none.mp hl e (List.mem_filter.mp he).1
  | some v =>
    have hm := mem_of_layerOf hl
    by_cases hp : p v = true
    · rw [Option.filter_some, if_pos hp, (h.filter _).layerOf_eq_some]
      exact List.mem_filter.mpr ⟨hm, hp⟩
    · rw [Option.filter_some, if_neg hp, layerOf_eq_none]
      rintro ⟨k', w⟩ hw rfl
      obtain ⟨hw, hpw⟩ := List.mem_filter.mp hw
      rw [h.eq_of_mem hm hw] at hp
      exact hp hpw

/-- **A layer is one ascending list.** -/
theorem ext (h : Ascending es) {es' : List (K × V)} (h' : Ascending es')
    (hk : ∀ k, layerOf es k = layerOf es' k) : es = es' := by
  induction es generalizing es' with
  | nil =>
    cases es' with
    | nil => rfl
    | cons e es' =>
      have := hk e.1
      rw [layerOf_nil, layerOf_cons, if_pos rfl] at this
      cases this
  | cons e es ih =>
    have he := h'.layerOf_eq_some.mp ((hk e.1).symm.trans (by rw [layerOf_cons, if_pos rfl]))
    cases es' with
    | nil => cases he
    | cons x es' =>
      have hx := h.layerOf_eq_some.mp ((hk x.1).trans (by rw [layerOf_cons, if_pos rfl]))
      -- either head is the least key of both lists
      obtain rfl : e = x := by
        rcases List.mem_cons.mp he with he | he
        · exact he
        · rcases List.mem_cons.mp hx with hx | hx
          · exact hx.symm
          · exact absurd (h.cons.1 _ hx) (lt_asymm (h'.cons.1 _ he))
      refine congrArg (e :: ·) (ih h.cons.2 h'.cons.2 fun k => ?_)
      have := hk k
      rw [layerOf_cons, layerOf_cons] at this
      by_cases hek : e.1 = k
      · subst hek
        rw [layerOf_eq_none.mpr fun y hy => (h.cons.1 y hy).ne',
          layerOf_eq_none.mpr fun y hy => (h'.cons.1 y hy).ne']
      · rwa [if_neg hek, if_neg hek] at this

/-- The entries of one key. -/
theorem filter_key (h : Ascending es) (k : K) :
    (es.filter fun e => decide (k = e.1)) = (layerOf es k).toList.map fun v => (k, v) := by
  induction es with
  | nil => rfl
  | cons e es ih =>
    obtain ⟨hlt, hes⟩ := h.cons
    rw [List.filter_cons, layerOf_cons, ih hes]
    by_cases he : e.1 = k
    · subst he
      have hnone : layerOf es e.1 = none := layerOf_eq_none.mpr fun x hx => (hlt x hx).ne'
      rw [if_pos (decide_eq_true rfl), if_pos rfl, hnone]
      rfl
    · rw [if_neg (by simpa using fun h => he h.symm), if_neg he]

/-- The first key is the least, and the last the greatest. -/
theorem head_le {e : K × V} (h : Ascending (e :: es)) : ∀ x ∈ e :: es, e.1 ≤ x.1 := by
  intro x hx
  rcases List.mem_cons.mp hx with rfl | hx
  · exact le_refl _
  · exact le_of_lt (h.cons.1 x hx)

theorem le_last {e : K × V} (h : Ascending (es ++ [e])) : ∀ x ∈ es ++ [e], x.1 ≤ e.1 := by
  intro x hx
  rcases List.mem_append.mp hx with hx | hx
  · exact le_of_lt ((List.pairwise_append.mp h).2.2 x hx e List.mem_cons_self)
  · rw [List.mem_singleton.mp hx]

end Ascending

end Ascending

end CrashLogic
