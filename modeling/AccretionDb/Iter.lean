import AccretionDb.Memtable
import Mathlib.Algebra.Order.BigOperators.Group.List
import Mathlib.Order.Compare

/-! # The merge iterator

Some sorted sources are merged through a heap of their heads.  `next` takes the
best head, with the smallest key and of these the largest sequence number, and
throws away the heads of the same key.  `Streams` is the state as the merge sees
it, every source with its head back in front, and `Merged` says what comes out:
every key once, with its newest version.
-/

namespace AccretionDb

open CrashLogic

/-- The head of a source on the heap. -/
structure HeapHead where
  key : Bytes
  value : InternalValue
  source : Nat
  deriving DecidableEq

/-- The greatest head has the smallest key, then the largest sequence number, then
the smallest source. -/
def HeapHead.cmp (head other : HeapHead) : Ordering :=
  (compare other.key head.key).then
    ((compare head.value.seq other.value.seq).then (compare other.source head.source))

/-- Take the greatest head off the heap. -/
def popMax : List HeapHead → Option (HeapHead × List HeapHead)
  | [] => none
  | h :: heap =>
    match popMax heap with
    | none => some (h, [])
    | some (m, rest) => if m.cmp h = .gt then some (m, h :: rest) else some (h, m :: rest)

structure MergeIterator where
  sources : List (List Entry)
  heap : List HeapHead

namespace MergeIterator

/-- Push the next entry of a source. -/
def refill (m : MergeIterator) (idx : Nat) : MergeIterator :=
  match m.sources[idx]? with
  | some ((key, value) :: rest) => ⟨m.sources.set idx rest, ⟨key, value, idx⟩ :: m.heap⟩
  | _ => m

def new (sources : List (List Entry)) : MergeIterator :=
  (List.range sources.length).foldl refill ⟨sources, []⟩

/-- Pop a head and refill its source. -/
def pop (m : MergeIterator) : Option (HeapHead × MergeIterator) :=
  match popMax m.heap with
  | none => none
  | some (head, heap) => some (head, refill { m with heap } head.source)

/-- The loop that discards the heads of one key; every round takes an entry, so as
many rounds as there are entries are enough. -/
def dropKey (key : Bytes) : Nat → MergeIterator → MergeIterator
  | 0, m => m
  | rounds + 1, m =>
    match m.pop with
    | none => m
    | some (dup, m') => if dup.key = key then dropKey key rounds m' else m

/-- How many entries are left. -/
def size (m : MergeIterator) : Nat := m.heap.length + (m.sources.map List.length).sum

def next (m : MergeIterator) : Option (Entry × MergeIterator) :=
  match m.pop with
  | none => none
  | some (winner, m') => some ((winner.key, winner.value), dropKey winner.key m'.size m')

def collect : Nat → MergeIterator → List Entry
  | 0, _ => []
  | rounds + 1, m =>
    match m.next with
    | none => []
    | some (e, m') => e :: collect rounds m'

/-- All that the iterator yields. -/
def toList (m : MergeIterator) : List Entry := collect m.size m

/-- `LiveIter`: the pairs whose winner is not a tombstone. -/
def live (m : MergeIterator) : List (Bytes × Bytes) :=
  m.toList.filterMap fun e => e.2.asValue.map fun v => (e.1, v)

end MergeIterator

/-! ### The heap -/

/-- `m` goes before `x`, or is `x`. -/
def HeapHead.Beats (m x : HeapHead) : Prop :=
  m.key < x.key ∨ m.key = x.key ∧
    (x.value.seq < m.value.seq ∨ x.value.seq = m.value.seq ∧ m.source ≤ x.source)

namespace HeapHead

theorem cmp_gt (m x : HeapHead) : m.cmp x = .gt ↔
    m.key < x.key ∨ m.key = x.key ∧
      (x.value.seq < m.value.seq ∨ x.value.seq = m.value.seq ∧ m.source < x.source) := by
  rw [cmp, Ordering.then_eq_gt, Ordering.then_eq_gt, compare_gt_iff_gt, compare_eq_iff_eq,
    compare_gt_iff_gt, compare_eq_iff_eq, compare_gt_iff_gt]
  constructor
  · rintro (h | ⟨h, h' | ⟨h', h''⟩⟩)
    · exact Or.inl h
    · exact Or.inr ⟨h.symm, Or.inl h'⟩
    · exact Or.inr ⟨h.symm, Or.inr ⟨h'.symm, h''⟩⟩
  · rintro (h | ⟨h, h' | ⟨h', h''⟩⟩)
    · exact Or.inl h
    · exact Or.inr ⟨h.symm, Or.inl h'⟩
    · exact Or.inr ⟨h.symm, Or.inr ⟨h'.symm, h''⟩⟩

theorem Beats.refl (m : HeapHead) : m.Beats m :=
  Or.inr ⟨rfl, Or.inr ⟨rfl, Nat.le_refl _⟩⟩

theorem Beats.trans {a b c : HeapHead} (h : a.Beats b) (h' : b.Beats c) : a.Beats c := by
  rcases h with h | ⟨hk, h⟩
  · rcases h' with h' | ⟨hk', _⟩
    · exact Or.inl (lt_trans h h')
    · exact Or.inl (hk' ▸ h)
  · rcases h' with h' | ⟨hk', h'⟩
    · exact Or.inl (hk ▸ h')
    · exact Or.inr ⟨hk.trans hk', by omega⟩

/-- Of two heads one goes before the other. -/
theorem Beats.of_cmp {m x : HeapHead} (h : m.cmp x = .gt) : m.Beats x := by
  rcases (cmp_gt m x).mp h with h | ⟨hk, h⟩
  · exact Or.inl h
  · exact Or.inr ⟨hk, by omega⟩

theorem Beats.of_not_cmp {m x : HeapHead} (h : m.cmp x ≠ .gt) : x.Beats m := by
  rw [ne_eq, cmp_gt] at h
  rcases lt_trichotomy m.key x.key with hk | hk | hk
  · exact absurd (Or.inl hk) h
  · have hno : ¬ (x.value.seq < m.value.seq ∨ x.value.seq = m.value.seq ∧ m.source < x.source) :=
      fun h' => h (Or.inr ⟨hk, h'⟩)
    exact Or.inr ⟨hk.symm, by omega⟩
  · exact Or.inl hk

end HeapHead

theorem popMax_eq_none {heap : List HeapHead} : popMax heap = none ↔ heap = [] := by
  cases heap with
  | nil => exact ⟨fun _ => rfl, fun _ => rfl⟩
  | cons h heap =>
    refine ⟨fun hp => ?_, nofun⟩
    rw [popMax] at hp
    split at hp
    · cases hp
    · split at hp <;> cases hp

/-- **`pop` takes the head that beats all others.** -/
theorem popMax_spec {heap rest : List HeapHead} {m : HeapHead} (h : popMax heap = some (m, rest)) :
    heap.Perm (m :: rest) ∧ ∀ x ∈ heap, m.Beats x := by
  induction heap generalizing m rest with
  | nil => cases h
  | cons a heap ih =>
    rw [popMax] at h
    cases hp : popMax heap with
    | none =>
      rw [hp] at h
      obtain ⟨rfl, rfl⟩ := Prod.mk.inj (Option.some.inj h)
      rw [popMax_eq_none.mp hp]
      refine ⟨List.Perm.refl _, fun x hx => ?_⟩
      rw [List.mem_singleton.mp hx]
      exact .refl a
    | some y =>
      obtain ⟨m', rest'⟩ := y
      rw [hp] at h
      obtain ⟨hperm, hbest⟩ := ih hp
      change (if m'.cmp a = .gt then some (m', a :: rest') else some (a, m' :: rest')) = _ at h
      by_cases hc : m'.cmp a = .gt
      · rw [if_pos hc] at h
        obtain ⟨rfl, rfl⟩ := Prod.mk.inj (Option.some.inj h)
        refine ⟨(hperm.cons a).trans (List.Perm.swap ..), fun x hx => ?_⟩
        rcases List.mem_cons.mp hx with rfl | hx
        · exact .of_cmp hc
        · exact hbest x hx
      · rw [if_neg hc] at h
        obtain ⟨rfl, rfl⟩ := Prod.mk.inj (Option.some.inj h)
        refine ⟨hperm.cons a, fun x hx => ?_⟩
        rcases List.mem_cons.mp hx with rfl | hx
        · exact .refl x
        · exact HeapHead.Beats.trans (.of_not_cmp hc) (hbest x hx)

/-! ### The streams behind the state -/

/-- The streams still to come.  `R` are the sources whose head is on the heap, if
they have one. -/
structure Streams (R : Nat → Prop) (m : MergeIterator) (ss : List (List Entry)) : Prop where
  ready : ∀ i, R i → m.sources[i]? = ss[i]?.map List.tail
  waiting : ∀ i, ¬ R i → m.sources[i]? = ss[i]?
  heap : ∀ h, h ∈ m.heap ↔
    R h.source ∧ ∃ rest, ss[h.source]? = some ((h.key, h.value) :: rest)
  nodup : m.heap.Nodup
  size : m.size = (ss.map List.length).sum

/-- All heads are on the heap. -/
abbrev Full : Nat → Prop := fun _ => True

theorem sum_length_set {α : Type} {ss : List (List α)} {i : Nat} {e : α} {rest : List α}
    (h : ss[i]? = some (e :: rest)) :
    ((ss.set i rest).map List.length).sum + 1 = (ss.map List.length).sum := by
  induction ss generalizing i with
  | nil => simp at h
  | cons s ss ih =>
    cases i with
    | zero =>
      rw [List.getElem?_cons_zero, Option.some.injEq] at h
      subst h
      simp only [List.set_cons_zero, List.map_cons, List.sum_cons, List.length_cons]
      omega
    | succ i =>
      rw [List.getElem?_cons_succ] at h
      have := ih h
      simp only [List.set_cons_succ, List.map_cons, List.sum_cons]
      omega

namespace Streams

variable {R : Nat → Prop} {m : MergeIterator} {ss : List (List Entry)}

theorem congr {R' : Nat → Prop} (h : Streams R m ss) (hR : ∀ i, R i ↔ R' i) : Streams R' m ss := by
  have : R = R' := funext fun i => propext (hR i)
  rw [← this]
  exact h

/-- Refilling a source puts its head on the heap. -/
theorem refill (h : Streams R m ss) {i : Nat} (hi : ¬ R i) :
    Streams (fun j => R j ∨ j = i) (m.refill i) ss := by
  have hw := h.waiting i hi
  unfold MergeIterator.refill
  rcases hs : ss[i]? with _ | _ | ⟨⟨key, value⟩, rest⟩
  · rw [hs] at hw
    rw [hw]
    refine ⟨fun j hj => ?_, fun j hj => h.waiting j fun hR => hj (Or.inl hR), fun x => ?_,
      h.nodup, h.size⟩
    · rcases hj with hj | rfl
      · exact h.ready j hj
      · rw [hw, hs]
        rfl
    · rw [h.heap]
      refine and_congr_left fun ⟨rest, hr⟩ => ⟨Or.inl, fun hx => hx.resolve_right fun e => ?_⟩
      rw [e, hs] at hr
      cases hr
  · rw [hs] at hw
    rw [hw]
    refine ⟨fun j hj => ?_, fun j hj => h.waiting j fun hR => hj (Or.inl hR), fun x => ?_,
      h.nodup, h.size⟩
    · rcases hj with hj | rfl
      · exact h.ready j hj
      · rw [hw, hs]
        rfl
    · rw [h.heap]
      refine and_congr_left fun ⟨rest, hr⟩ => ⟨Or.inl, fun hx => hx.resolve_right fun e => ?_⟩
      rw [e, hs] at hr
      cases hr
  · rw [hs] at hw
    rw [hw]
    have hlt : i < m.sources.length := (List.getElem?_eq_some_iff.mp hw).1
    refine ⟨fun j hj => ?_, fun j hj => ?_, fun x => ?_, ?_, ?_⟩
    · by_cases hji : j = i
      · subst hji
        rw [List.getElem?_set_self hlt, hs]
        rfl
      · rw [List.getElem?_set_ne fun e => hji e.symm]
        exact h.ready j (hj.resolve_right hji)
    · rw [not_or] at hj
      rw [List.getElem?_set_ne fun e => hj.2 e.symm]
      exact h.waiting j hj.1
    · rw [List.mem_cons, h.heap]
      constructor
      · rintro (rfl | ⟨hR, hr⟩)
        · exact ⟨Or.inr rfl, rest, hs⟩
        · exact ⟨Or.inl hR, hr⟩
      · rintro ⟨hR | hx, rest', hr⟩
        · exact Or.inr ⟨hR, rest', hr⟩
        · obtain ⟨k, v, src⟩ := x
          change src = i at hx
          subst hx
          rw [hs] at hr
          cases hr
          exact Or.inl rfl
    · refine List.nodup_cons.mpr ⟨fun hm => ?_, h.nodup⟩
      exact hi ((h.heap _).mp hm).1
    · have hsum := sum_length_set hw
      have hsize := h.size
      simp only [MergeIterator.size, List.length_cons] at hsize ⊢
      omega

/-- Popping a head takes it off its stream. -/
theorem popMax {head : HeapHead} {heap : List HeapHead} (h : Streams R m ss)
    (hp : AccretionDb.popMax m.heap = some (head, heap)) : ∃ rest,
      ss[head.source]? = some ((head.key, head.value) :: rest) ∧
      Streams (fun j => R j ∧ j ≠ head.source) { m with heap } (ss.set head.source rest) := by
  obtain ⟨hperm, _⟩ := popMax_spec hp
  have hmem : head ∈ m.heap := hperm.mem_iff.mpr List.mem_cons_self
  obtain ⟨hR, rest, hs⟩ := (h.heap head).mp hmem
  have hlt : head.source < ss.length := (List.getElem?_eq_some_iff.mp hs).1
  have hn := hperm.nodup_iff.mp h.nodup
  obtain ⟨hnot, hnodup⟩ := List.nodup_cons.mp hn
  refine ⟨rest, hs, fun j hj => ?_, fun j hj => ?_, fun x => ?_, hnodup, ?_⟩
  · rw [List.getElem?_set_ne fun e => hj.2 e.symm]
    exact h.ready j hj.1
  · by_cases hjs : j = head.source
    · subst hjs
      rw [List.getElem?_set_self hlt]
      have := h.ready _ hR
      rw [hs] at this
      exact this
    · rw [List.getElem?_set_ne fun e => hjs e.symm]
      exact h.waiting j fun hRj => hj ⟨hRj, hjs⟩
  · have hx := h.heap x
    rw [hperm.mem_iff, List.mem_cons] at hx
    by_cases hxs : x.source = head.source
    · -- the popped head was the only one of its source
      constructor
      · intro hm
        obtain ⟨_, r, hr⟩ := hx.mp (Or.inr hm)
        rw [hxs, hs] at hr
        obtain ⟨k, v, src⟩ := x
        obtain ⟨k', v', src'⟩ := head
        change src = src' at hxs
        cases hr
        subst hxs
        exact absurd hm hnot
      · exact fun hm => absurd hxs hm.1.2
    · rw [List.getElem?_set_ne fun e => hxs e.symm]
      constructor
      · intro hm
        obtain ⟨hR', hr⟩ := hx.mp (Or.inr hm)
        exact ⟨⟨hR', hxs⟩, hr⟩
      · rintro ⟨⟨hR', _⟩, hr⟩
        refine (hx.mpr ⟨hR', hr⟩).resolve_left fun e => hxs (congrArg _ e)
  · have hsum := sum_length_set hs
    have hsize := h.size
    have hlen := hperm.length_eq
    simp only [MergeIterator.size, List.length_cons] at hsize hlen ⊢
    omega

/-- **The state that `new` builds** has all sources with their heads on the heap. -/
theorem new (sources : List (List Entry)) : Streams Full (MergeIterator.new sources) sources := by
  have hfold : ∀ n, Streams (· < n) ((List.range n).foldl MergeIterator.refill ⟨sources, []⟩)
      sources := by
    intro n
    induction n with
    | zero =>
      refine ⟨fun i hi => absurd hi (Nat.not_lt_zero i), fun _ _ => rfl, fun x => ?_, List.nodup_nil,
        Nat.zero_add _⟩
      exact ⟨fun h => absurd h List.not_mem_nil, fun h => absurd h.1 (Nat.not_lt_zero _)⟩
    | succ n ih =>
      rw [List.range_succ, List.foldl_append]
      exact (ih.refill (Nat.lt_irrefl n)).congr fun i => by omega
  have h := hfold sources.length
  have hbeyond : ∀ i, ¬ i < sources.length → sources[i]? = none := fun i hi =>
    List.getElem?_eq_none (Nat.not_lt.mp hi)
  refine ⟨fun i _ => ?_, fun i hi => absurd trivial hi, fun x => ?_, h.nodup, h.size⟩
  · by_cases hi : i < sources.length
    · exact h.ready i hi
    · rw [MergeIterator.new, h.waiting i hi, hbeyond i hi]
      rfl
  · rw [MergeIterator.new, h.heap]
    refine and_congr_left fun ⟨rest, hr⟩ => ⟨fun _ => trivial, fun _ => ?_⟩
    by_contra hi
    rw [hbeyond _ hi] at hr
    cases hr

/-- A pop advances the stream with the best head. -/
theorem pop {head : HeapHead} {m' : MergeIterator} (h : Streams Full m ss)
    (hp : m.pop = some (head, m')) : ∃ rest,
      ss[head.source]? = some ((head.key, head.value) :: rest) ∧
      Streams Full m' (ss.set head.source rest) ∧
      ∀ (i : Nat) (e : Entry) (r : List Entry), ss[i]? = some (e :: r) → head.Beats ⟨e.1, e.2, i⟩ := by
  unfold MergeIterator.pop at hp
  cases hm : AccretionDb.popMax m.heap with
  | none =>
    rw [hm] at hp
    cases hp
  | some x =>
    obtain ⟨head', heap⟩ := x
    rw [hm] at hp
    obtain ⟨rfl, rfl⟩ := Prod.mk.inj (Option.some.inj hp)
    obtain ⟨rest, hs, hst⟩ := h.popMax hm
    refine ⟨rest, hs, (hst.refill fun hc => hc.2 rfl).congr fun j => ?_, fun i e r hi => ?_⟩
    · by_cases hj : j = head'.source
      · exact ⟨fun _ => trivial, fun _ => Or.inr hj⟩
      · exact ⟨fun _ => trivial, fun _ => Or.inl ⟨trivial, hj⟩⟩
    · exact (popMax_spec hm).2 _ ((h.heap ⟨e.1, e.2, i⟩).mpr ⟨trivial, r, hi⟩)

/-- With no head on the heap the streams are at their end. -/
theorem pop_none (h : Streams Full m ss) (hp : m.pop = none) : ∀ s ∈ ss, s = [] := by
  have hheap : m.heap = [] := by
    unfold MergeIterator.pop at hp
    cases hm : AccretionDb.popMax m.heap with
    | none => exact popMax_eq_none.mp hm
    | some x =>
      rw [hm] at hp
      cases hp
  intro s hs
  obtain ⟨i, hi⟩ := List.mem_iff_getElem?.mp hs
  cases s with
  | nil => rfl
  | cons e r =>
    have hm := (h.heap ⟨e.1, e.2, i⟩).mpr ⟨trivial, r, hi⟩
    rw [hheap] at hm
    cases hm

end Streams

/-! ### What comes out -/

/-- The streams without the entries of a key. -/
def without (key : Bytes) (ss : List (List Entry)) : List (List Entry) :=
  ss.map fun s => s.filter fun e => decide (e.1 ≠ key)

theorem without_eq_self {key : Bytes} {ss : List (List Entry)}
    (h : ∀ s ∈ ss, ∀ e ∈ s, e.1 ≠ key) : without key ss = ss := by
  refine (List.map_congr_left fun s hs => ?_).trans (List.map_id ss)
  exact List.filter_eq_self.mpr fun e he => decide_eq_true (h s hs e he)

theorem without_set {key : Bytes} {ss : List (List Entry)} {i : Nat} {e : Entry}
    {rest : List Entry} (h : ss[i]? = some (e :: rest)) (he : e.1 = key) :
    without key (ss.set i rest) = without key ss := by
  have hhead : (e :: rest).filter (fun e => decide (e.1 ≠ key)) =
      rest.filter fun e => decide (e.1 ≠ key) :=
    List.filter_cons_of_neg (by simp [he])
  obtain ⟨hlt, hget⟩ := List.getElem?_eq_some_iff.mp h
  have hlt' : i < (without key ss).length := by rwa [without, List.length_map]
  have hsame : (without key ss)[i] = rest.filter fun e => decide (e.1 ≠ key) := by
    simp only [without, List.getElem_map, hget, hhead]
  rw [without, List.map_set, ← hsame]
  exact List.set_getElem_self hlt'

theorem mem_without {key : Bytes} {ss : List (List Entry)} {i : Nat} {s' : List Entry}
    (h : (without key ss)[i]? = some s') :
    ∃ s, ss[i]? = some s ∧ s' = s.filter fun e => decide (e.1 ≠ key) := by
  rw [without, List.getElem?_map, Option.map_eq_some_iff] at h
  obtain ⟨s, hs, rfl⟩ := h
  exact ⟨s, hs, rfl⟩

/-- All streams ascend. -/
def Sorted (ss : List (List Entry)) : Prop := ∀ s ∈ ss, Ascending s

theorem Sorted.without {ss : List (List Entry)} (h : Sorted ss) (key : Bytes) :
    Sorted (without key ss) := by
  intro s' hs'
  obtain ⟨s, hs, rfl⟩ := List.mem_map.mp hs'
  exact (h s hs).filter _

theorem Sorted.set {ss : List (List Entry)} (h : Sorted ss) {i : Nat} {e : Entry}
    {rest : List Entry} (hi : ss[i]? = some (e :: rest)) : Sorted (ss.set i rest) := by
  intro s hs
  rcases List.mem_or_eq_of_mem_set hs with hs | rfl
  · exact h s hs
  · exact (h _ (List.mem_of_getElem? hi)).cons.2

/-- No stream has a key before this one. -/
def From (key : Bytes) (ss : List (List Entry)) : Prop := ∀ s ∈ ss, ∀ e ∈ s, key ≤ e.1

theorem From.set {ss : List (List Entry)} {key : Bytes} (h : From key ss) {i : Nat} {e : Entry}
    {rest : List Entry} (hi : ss[i]? = some (e :: rest)) : From key (ss.set i rest) := by
  intro s hs x hx
  rcases List.mem_or_eq_of_mem_set hs with hs | rfl
  · exact h s hs x hx
  · exact h _ (List.mem_of_getElem? hi) x (List.mem_cons_of_mem _ hx)

/-- The best head has the first key of all. -/
theorem Sorted.from_best {ss : List (List Entry)} (h : Sorted ss) {head : HeapHead}
    (hb : ∀ (i : Nat) (e : Entry) (r : List Entry), ss[i]? = some (e :: r) →
      head.Beats ⟨e.1, e.2, i⟩) : From head.key ss := by
  intro s hs x hx
  obtain ⟨i, hi⟩ := List.mem_iff_getElem?.mp hs
  cases s with
  | nil => cases hx
  | cons e r =>
    have hle : head.key ≤ e.1 := by
      rcases hb i e r hi with h | ⟨h, _⟩
      · exact le_of_lt h
      · exact le_of_eq h
    exact le_trans hle ((h _ hs).head_le x hx)

namespace Streams

variable {m : MergeIterator} {ss : List (List Entry)}

theorem eq_nil_of_size {R : Nat → Prop} (h : Streams R m ss) (h0 : m.size = 0) :
    ∀ s ∈ ss, s = [] := by
  intro s hs
  have hsum : (ss.map List.length).sum = 0 := h.size ▸ h0
  have hlen := List.sum_eq_zero_iff_forall_eq_nat.mp hsum _ (List.mem_map_of_mem hs)
  exact List.length_eq_zero_iff.mp hlen

theorem size_pop {head : HeapHead} {m' : MergeIterator} {rest : List Entry}
    (h : Streams Full m ss) (hs : ss[head.source]? = some ((head.key, head.value) :: rest))
    (h' : Streams Full m' (ss.set head.source rest)) : m'.size + 1 = m.size := by
  rw [h.size, h'.size]
  exact sum_length_set hs

/-- The inner loop leaves the streams without the key. -/
theorem dropKey {key : Bytes} : ∀ (rounds : Nat) {m : MergeIterator} {ss : List (List Entry)},
    Streams Full m ss → Sorted ss → From key ss → m.size ≤ rounds →
      Streams Full (MergeIterator.dropKey key rounds m) (without key ss) := by
  intro rounds
  induction rounds with
  | zero =>
    intro m ss h _ _ hr
    have hnil := h.eq_nil_of_size (Nat.le_zero.mp hr)
    rw [without_eq_self fun s hs e he => by rw [hnil s hs] at he; cases he]
    exact h
  | succ rounds ih =>
    intro m ss h hsort hfrom hr
    rw [MergeIterator.dropKey]
    cases hp : m.pop with
    | none =>
      have hnil := h.pop_none hp
      rw [without_eq_self fun s hs e he => by rw [hnil s hs] at he; cases he]
      exact h
    | some x =>
      obtain ⟨dup, m'⟩ := x
      obtain ⟨rest, hs, h', hbest⟩ := h.pop hp
      dsimp only
      by_cases hk : dup.key = key
      · rw [if_pos hk, ← without_set hs hk]
        have hsize := h.size_pop hs h'
        exact ih h' (hsort.set hs) (hfrom.set hs) (by omega)
      · rw [if_neg hk]
        have hlt : key < dup.key :=
          lt_of_le_of_ne (hfrom _ (List.mem_of_getElem? hs) _ List.mem_cons_self) fun e => hk e.symm
        have hdup := hsort.from_best hbest
        rw [without_eq_self fun s hs e he => (lt_of_lt_of_le hlt (hdup s hs e he)).ne']
        exact h

/-- **One step of the merge.**  The best head comes out, and its key leaves all
streams. -/
theorem next {e : Entry} {m' : MergeIterator} (h : Streams Full m ss) (hsort : Sorted ss)
    (hn : m.next = some (e, m')) : ∃ i rest, ss[i]? = some (e :: rest) ∧
      Streams Full m' (without e.1 ss) ∧ From e.1 ss ∧ m'.size < m.size ∧
      ∀ (j : Nat) (x : Entry) (r : List Entry), ss[j]? = some (x :: r) →
        HeapHead.Beats ⟨e.1, e.2, i⟩ ⟨x.1, x.2, j⟩ := by
  unfold MergeIterator.next at hn
  cases hp : m.pop with
  | none =>
    rw [hp] at hn
    cases hn
  | some y =>
    obtain ⟨head, m₁⟩ := y
    rw [hp] at hn
    obtain ⟨rfl, rfl⟩ := Prod.mk.inj (Option.some.inj hn)
    obtain ⟨rest, hs, h', hbest⟩ := h.pop hp
    have hfrom := hsort.from_best hbest
    have hd := h'.dropKey m₁.size (hsort.set hs) (hfrom.set hs) (Nat.le_refl _)
    rw [without_set hs rfl] at hd
    refine ⟨head.source, rest, hs, hd, hfrom, ?_, hbest⟩
    have hsize := h.size_pop hs h'
    have hle : (MergeIterator.dropKey head.key m₁.size m₁).size ≤ m₁.size := by
      rw [hd.size, h'.size, ← without_set hs rfl, without, List.map_map]
      exact List.sum_le_sum fun s _ => List.length_filter_le _ s
    omega

theorem next_none (h : Streams Full m ss) (hn : m.next = none) : ∀ s ∈ ss, s = [] := by
  unfold MergeIterator.next at hn
  cases hp : m.pop with
  | none => exact h.pop_none hp
  | some y =>
    rw [hp] at hn
    cases hn

end Streams

/-- The entry comes from the source `i`, and no source has a later version of its key. -/
def Wins (ss : List (List Entry)) (e : Entry) : Prop :=
  ∃ (i : Nat) (s : List Entry), ss[i]? = some s ∧ e ∈ s ∧
    ∀ (j : Nat) (s' : List Entry) (v : InternalValue), ss[j]? = some s' → (e.1, v) ∈ s' →
      HeapHead.Beats ⟨e.1, e.2, i⟩ ⟨e.1, v, j⟩

/-- **What the merge of some streams yields**: every key once, in order, with the
version that wins. -/
structure Merged (ss : List (List Entry)) (out : List Entry) : Prop where
  ascending : Ascending out
  wins : ∀ e ∈ out, Wins ss e
  covers : ∀ s ∈ ss, ∀ e ∈ s, ∃ v, (e.1, v) ∈ out

namespace Merged

variable {ss : List (List Entry)} {out : List Entry}

theorem nil (h : ∀ s ∈ ss, s = []) : Merged ss [] where
  ascending := .nil
  wins e he := by cases he
  covers s hs e he := by
    rw [h s hs] at he
    cases he

/-- The entry of a key at its head is the only one the stream has. -/
theorem head_of_mem {s : List Entry} (h : Ascending s) {key : Bytes} (hfrom : ∀ e ∈ s, key ≤ e.1)
    {v : InternalValue} (hv : (key, v) ∈ s) : ∃ r, s = (key, v) :: r := by
  cases s with
  | nil => cases hv
  | cons x r =>
    rcases List.mem_cons.mp hv with rfl | hr
    · exact ⟨r, rfl⟩
    · have hx := hfrom x List.mem_cons_self
      exact absurd (h.cons.1 _ hr) (not_lt_of_ge hx)

theorem cons {e : Entry} {i : Nat} {rest : List Entry} (hsort : Sorted ss)
    (hs : ss[i]? = some (e :: rest)) (hfrom : From e.1 ss)
    (hbest : ∀ (j : Nat) (x : Entry) (r : List Entry), ss[j]? = some (x :: r) →
      HeapHead.Beats ⟨e.1, e.2, i⟩ ⟨x.1, x.2, j⟩)
    (h : Merged (without e.1 ss) out) : Merged ss (e :: out) where
  ascending := by
    refine List.pairwise_cons.mpr ⟨fun o ho => ?_, h.ascending⟩
    obtain ⟨j, s', hj, hmem, _⟩ := h.wins o ho
    obtain ⟨s, hsj, rfl⟩ := mem_without hj
    obtain ⟨hos, hne⟩ := List.mem_filter.mp hmem
    have hne : o.1 ≠ e.1 := of_decide_eq_true hne
    exact lt_of_le_of_ne (hfrom s (List.mem_of_getElem? hsj) o hos) hne.symm
  wins o ho := by
    rcases List.mem_cons.mp ho with rfl | ho
    · refine ⟨i, _, hs, List.mem_cons_self, fun j s' v hj hv => ?_⟩
      have hs' := List.mem_of_getElem? hj
      obtain ⟨r, rfl⟩ := head_of_mem (hsort s' hs') (hfrom s' hs') hv
      exact hbest j _ r hj
    · obtain ⟨j, s', hj, hmem, hwin⟩ := h.wins o ho
      obtain ⟨s, hsj, rfl⟩ := mem_without hj
      obtain ⟨hos, hne⟩ := List.mem_filter.mp hmem
      refine ⟨j, s, hsj, hos, fun j' t v hj' hv => ?_⟩
      refine hwin j' (t.filter fun x => decide (x.1 ≠ e.1)) v ?_ (List.mem_filter.mpr ⟨hv, hne⟩)
      rw [without, List.getElem?_map, hj']
      rfl
  covers s hs x hx := by
    by_cases hxe : x.1 = e.1
    · exact ⟨e.2, hxe ▸ List.mem_cons_self⟩
    · have hxs : x ∈ s.filter fun y => decide (y.1 ≠ e.1) :=
        List.mem_filter.mpr ⟨hx, decide_eq_true hxe⟩
      obtain ⟨v, hv⟩ := h.covers _ (List.mem_map_of_mem hs) x hxs
      exact ⟨v, List.mem_cons_of_mem _ hv⟩

theorem collect : ∀ (rounds : Nat) {m : MergeIterator} {ss : List (List Entry)},
    Streams Full m ss → Sorted ss → m.size ≤ rounds → Merged ss (MergeIterator.collect rounds m) := by
  intro rounds
  induction rounds with
  | zero => exact fun h _ hr => .nil (h.eq_nil_of_size (Nat.le_zero.mp hr))
  | succ rounds ih =>
    intro m ss h hsort hr
    rw [MergeIterator.collect]
    cases hn : m.next with
    | none => exact .nil (h.next_none hn)
    | some x =>
      obtain ⟨e, m'⟩ := x
      obtain ⟨i, rest, hs, h', hfrom, hlt, hbest⟩ := h.next hsort hn
      exact .cons hsort hs hfrom hbest (ih h' (hsort.without e.1) (by omega))

/-- **The merge of ascending sources.** -/
theorem toList (hsort : Sorted ss) : Merged ss (MergeIterator.new ss).toList :=
  collect _ (.new ss) hsort (Nat.le_refl _)

/-- Where the sources are layers in order, the merge is what a reader that walks down
finds. -/
theorem layerOf_eq (h : Merged ss out) (hsort : Sorted ss) {ls : List Versions} (ho : Ordered ls)
    (hls : ∀ l, l ∈ ls ↔ ∃ s ∈ ss, l = layerOf s) (key : Bytes) :
    layerOf out key = lookup ls key := by
  cases hk : layerOf out key with
  | some v =>
    obtain ⟨i, s, hi, hmem, hwin⟩ := h.wins _ (mem_of_layerOf hk)
    have hs := List.mem_of_getElem? hi
    have hv : layerOf s key = some v := (hsort s hs).layerOf_eq_some.mpr hmem
    refine (ho.lookup_eq_of_max ((hls _).mpr ⟨s, hs, rfl⟩) hv fun l hl w hw => ?_).symm
    obtain ⟨t, ht, rfl⟩ := (hls l).mp hl
    obtain ⟨j, hj⟩ := List.mem_iff_getElem?.mp ht
    rcases hwin j t w hj (mem_of_layerOf hw) with hlt | ⟨_, hseq⟩
    · exact absurd hlt (lt_irrefl _)
    · show w.seq ≤ v.seq
      dsimp only at hseq
      omega
  | none =>
    symm
    refine lookup_eq_none.mpr fun l hl => ?_
    obtain ⟨s, hs, rfl⟩ := (hls l).mp hl
    refine layerOf_eq_none.mpr fun e he hek => ?_
    obtain ⟨v, hv⟩ := h.covers s hs e he
    exact layerOf_eq_none.mp hk _ hv hek

end Merged

/-! ### The iterators as their callers see them -/

/-- Calling `next` until it returns nothing gives these items. -/
inductive Yields {σ α : Type} (next : σ → Option (α × σ)) : σ → List α → Prop
  | done {s : σ} (h : next s = none) : Yields next s []
  | item {s s' : σ} {a : α} {as : List α} (h : next s = some (a, s')) (tail : Yields next s' as) :
      Yields next s (a :: as)

theorem Yields.unique {σ α : Type} {next : σ → Option (α × σ)} {s : σ} {as bs : List α}
    (h : Yields next s as) (h' : Yields next s bs) : as = bs := by
  induction h generalizing bs with
  | done hn =>
    cases h' with
    | done _ => rfl
    | item hn' _ =>
      rw [hn] at hn'
      cases hn'
  | item hn _ ih =>
    cases h' with
    | done hn' =>
      rw [hn] at hn'
      cases hn'
    | item hn' tail' =>
      rw [hn] at hn'
      obtain ⟨rfl, rfl⟩ := Prod.mk.inj (Option.some.inj hn')
      rw [ih tail']

structure LiveIter where
  inner : MergeIterator

/-- The loop of `LiveIter::next`; it takes an entry off the merge in every round but
the last. -/
def MergeIterator.nextLive : Nat → MergeIterator → Option ((Bytes × Bytes) × MergeIterator)
  | 0, _ => none
  | rounds + 1, m =>
    match m.next with
    | none => none
    | some ((key, value), m') =>
      match value.asValue with
      | some v => some ((key, v), m')
      | none => nextLive rounds m'

def LiveIter.next (it : LiveIter) : Option ((Bytes × Bytes) × LiveIter) :=
  (it.inner.nextLive (it.inner.size + 1)).map fun x => (x.1, ⟨x.2⟩)

namespace Streams

variable {m : MergeIterator} {ss : List (List Entry)}

theorem collect_yields : ∀ (rounds : Nat) {m : MergeIterator} {ss : List (List Entry)},
    Streams Full m ss → Sorted ss → m.size ≤ rounds →
      Yields MergeIterator.next m (MergeIterator.collect rounds m) := by
  intro rounds
  induction rounds with
  | zero =>
    intro m ss h _ hr
    have hheap : m.heap = [] := by
      rw [MergeIterator.size] at hr
      exact List.length_eq_zero_iff.mp (by omega)
    refine .done ?_
    rw [MergeIterator.next, MergeIterator.pop, hheap]
    rfl
  | succ rounds ih =>
    intro m ss h hsort hr
    rw [MergeIterator.collect]
    cases hn : m.next with
    | none => exact .done hn
    | some x =>
      obtain ⟨e, m'⟩ := x
      obtain ⟨i, rest, hs, h', hfrom, hlt, hbest⟩ := h.next hsort hn
      exact .item hn (ih h' (hsort.without e.1) (by omega))

/-- **Iterating gives `toList`.** -/
theorem yields (h : Streams Full m ss) (hsort : Sorted ss) :
    Yields MergeIterator.next m m.toList :=
  h.collect_yields _ hsort (Nat.le_refl _)

end Streams

/-! #### Every call takes entries off -/

namespace MergeIterator

theorem size_refill (m : MergeIterator) (i : Nat) : (m.refill i).size = m.size := by
  unfold refill
  split
  · rename_i hs
    have hsum := sum_length_set hs
    simp only [size, List.length_cons]
    omega
  · rfl

theorem size_pop {m m' : MergeIterator} {head : HeapHead} (h : m.pop = some (head, m')) :
    m'.size + 1 = m.size := by
  unfold pop at h
  cases hp : popMax m.heap with
  | none =>
    rw [hp] at h
    cases h
  | some x =>
    obtain ⟨head', heap⟩ := x
    rw [hp] at h
    obtain ⟨rfl, rfl⟩ := Prod.mk.inj (Option.some.inj h)
    have hlen := (popMax_spec hp).1.length_eq
    rw [size_refill]
    simp only [size, List.length_cons] at hlen ⊢
    omega

theorem size_dropKey (key : Bytes) (rounds : Nat) :
    ∀ m : MergeIterator, (dropKey key rounds m).size ≤ m.size := by
  induction rounds with
  | zero => exact fun _ => Nat.le_refl _
  | succ rounds ih =>
    intro m
    rw [dropKey]
    cases hp : m.pop with
    | none => exact Nat.le_refl _
    | some x =>
      obtain ⟨dup, m'⟩ := x
      have hsize := size_pop hp
      have htail := ih m'
      dsimp only
      by_cases hk : dup.key = key
      · rw [if_pos hk]
        omega
      · rw [if_neg hk]

theorem size_next {m m' : MergeIterator} {e : Entry} (h : m.next = some (e, m')) :
    m'.size < m.size := by
  unfold next at h
  cases hp : m.pop with
  | none =>
    rw [hp] at h
    cases h
  | some x =>
    obtain ⟨head, m₁⟩ := x
    rw [hp] at h
    obtain ⟨rfl, rfl⟩ := Prod.mk.inj (Option.some.inj h)
    have hsize := size_pop hp
    have hdrop := size_dropKey head.key m₁.size m₁
    omega

theorem length_le_size {m : MergeIterator} {out : List Entry} (h : Yields next m out) :
    out.length ≤ m.size := by
  induction h with
  | done _ => exact Nat.zero_le _
  | item hn _ ih =>
    have hlt := size_next hn
    rw [List.length_cons]
    omega

end MergeIterator

/-! #### The live pairs -/

/-- The value pairs among the entries. -/
def livePairs (es : List Entry) : List (Bytes × Bytes) :=
  es.filterMap fun e => e.2.asValue.map fun v => (e.1, v)

theorem livePairs_cons_value {e : Entry} {v : Bytes} (h : e.2.asValue = some v)
    (es : List Entry) : livePairs (e :: es) = (e.1, v) :: livePairs es := by
  rw [livePairs, List.filterMap_cons, h]
  rfl

theorem livePairs_cons_tombstone {e : Entry} (h : e.2.asValue = none) (es : List Entry) :
    livePairs (e :: es) = livePairs es := by
  rw [livePairs, List.filterMap_cons, h]
  rfl

/-- One call of `LiveIter::next`: the tombstones before the next value go with it. -/
theorem nextLive_of_yields {m : MergeIterator} {out : List Entry}
    (h : Yields MergeIterator.next m out) : ∀ rounds, out.length < rounds →
    (m.nextLive rounds = none ∧ livePairs out = []) ∨
      ∃ x m' pre post, m.nextLive rounds = some (x, m') ∧ out = pre ++ post ∧ pre ≠ [] ∧
        livePairs out = x :: livePairs post ∧ Yields MergeIterator.next m' post := by
  induction h with
  | done hn =>
    intro rounds hr
    obtain ⟨rounds, rfl⟩ : ∃ k, rounds = k + 1 := ⟨rounds - 1, by omega⟩
    left
    rw [MergeIterator.nextLive, hn]
    exact ⟨rfl, rfl⟩
  | @item m m' e out hn tail ih =>
    intro rounds hr
    obtain ⟨rounds, rfl⟩ : ∃ k, rounds = k + 1 := ⟨rounds - 1, by omega⟩
    obtain ⟨key, value⟩ := e
    rw [MergeIterator.nextLive, hn]
    dsimp only
    cases hv : value.asValue with
    | some v =>
      right
      refine ⟨(key, v), m', [(key, value)], out, rfl, rfl, List.cons_ne_nil _ _, ?_, tail⟩
      exact livePairs_cons_value hv out
    | none =>
      dsimp only
      rw [livePairs_cons_tombstone (show (key, value).2.asValue = none from hv)]
      rw [List.length_cons] at hr
      rcases ih rounds (by omega) with h | ⟨x, m₂, pre, post, h1, rfl, -, h3, h4⟩
      · exact Or.inl h
      · exact Or.inr ⟨x, m₂, (key, value) :: pre, post, h1, rfl, List.cons_ne_nil _ _, h3, h4⟩

/-- **`LiveIter` yields the pairs whose winner is not a tombstone.** -/
theorem LiveIter.yields {m : MergeIterator} : ∀ {out : List Entry},
    Yields MergeIterator.next m out → Yields LiveIter.next ⟨m⟩ (livePairs out) := by
  intro out
  induction hn : out.length using Nat.strong_induction_on generalizing m out with
  | _ n ih =>
    intro h
    have hle := MergeIterator.length_le_size h
    rcases nextLive_of_yields h (m.size + 1) (by omega) with ⟨hnone, hnil⟩ | hsome
    · rw [hnil]
      refine .done ?_
      rw [LiveIter.next, hnone]
      rfl
    · obtain ⟨x, m', pre, post, hnext, rfl, hpre, hpairs, htail⟩ := hsome
      have hpos : 0 < pre.length := List.length_pos_iff.mpr hpre
      rw [List.length_append] at hn
      rw [hpairs]
      have hitem : LiveIter.next ⟨m⟩ = some (x, ⟨m'⟩) := by
        rw [LiveIter.next, hnext]
        rfl
      exact .item hitem (ih post.length (by omega) rfl htail)

end AccretionDb
