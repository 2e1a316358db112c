import Mathlib.Order.ConditionallyCompleteLattice.Basic
import Mathlib.Tactic.Common

/-!
# Stacks of layers

A store that never overwrites keeps its values in layers, the newest on top: a
value carries the stamp of its write, and a value without a payload records that
the key was deleted.  `lookup` is the reader that walks down and takes the first
value it meets.

`History` is the set of all values that were ever written, and `Shows s H` says
that reading the stack `s` answers with the newest value of `H`, or with nothing
where that value has no payload: such a value may be gone from the stack.  A stack
is `Ordered` when no layer holds a value later than one above it; then the first
value met is the newest there is (`Ordered.lookup_eq_of_max`), so a reader that
walks down and one that compares stamps agree.

`Compacts` is the merge of adjacent layers; at the bottom of the stack it may drop
the values without payload.  It changes no answer (`Compacts.shows`).
-/

namespace CrashLogic

/-- Values with a stamp; a value with no payload says that the key is gone. -/
class Stamped (V : Type) (X : outParam Type) where
  stamp : V → Nat
  payload : V → Option X

open Stamped

abbrev Layer (K V : Type) : Type := K → Option V

/-- Which values were written to which keys. -/
abbrev History (K V : Type) : Type := K → V → Prop

section Layers

variable {K V X : Type}

/-- The first value on the way down. -/
def lookup : List (Layer K V) → Layer K V
  | [], _ => none
  | l :: ls, k => (l k).or (lookup ls k)

@[simp] theorem lookup_nil (k : K) : lookup ([] : List (Layer K V)) k = none := rfl

theorem lookup_cons (l : Layer K V) (ls : List (Layer K V)) (k : K) :
    lookup (l :: ls) k = (l k).or (lookup ls k) := rfl

theorem lookup_append (s t : List (Layer K V)) (k : K) :
    lookup (s ++ t) k = (lookup s k).or (lookup t k) := by
  induction s with
  | nil => rw [List.nil_append, lookup_nil, Option.none_or]
  | cons l s ih => rw [List.cons_append, lookup_cons, lookup_cons, ih, Option.or_assoc]

theorem exists_of_lookup {s : List (Layer K V)} {k : K} {v : V} (h : lookup s k = some v) :
    ∃ l ∈ s, l k = some v := by
  induction s with
  | nil => cases h
  | cons l s ih =>
    rw [lookup_cons, Option.or_eq_some_iff] at h
    rcases h with h | ⟨_, h⟩
    · exact ⟨l, List.mem_cons_self, h⟩
    · obtain ⟨l', hl', hv⟩ := ih h
      exact ⟨l', List.mem_cons_of_mem _ hl', hv⟩

theorem lookup_eq_none {s : List (Layer K V)} {k : K} :
    lookup s k = none ↔ ∀ l ∈ s, l k = none := by
  induction s with
  | nil => exact ⟨fun _ _ h => absurd h List.not_mem_nil, fun _ => rfl⟩
  | cons l s ih => rw [lookup_cons, Option.or_eq_none_iff, ih, List.forall_mem_cons]

/-- A layer with nothing in it is not noticed. -/
theorem lookup_cons_none {l : Layer K V} {k : K} (h : l k = none) (ls : List (Layer K V)) :
    lookup (l :: ls) k = lookup ls k := by
  rw [lookup_cons, h, Option.none_or]

/-- The part of a layer on some keys. -/
def restrict (p : K → Bool) (l : Layer K V) : Layer K V := fun k => if p k then l k else none

theorem lookup_restrict (p : K → Bool) (s : List (Layer K V)) (k : K) :
    lookup (s.map (restrict p)) k = restrict p (lookup s) k := by
  induction s with
  | nil => exact (ite_self _).symm
  | cons l s ih =>
    rw [List.map_cons, lookup_cons, ih, restrict, restrict, restrict, lookup_cons]
    by_cases h : p k = true
    · rw [if_pos h, if_pos h, if_pos h]
    · rw [if_neg h, if_neg h, if_neg h, Option.none_or]

/-! ### The order of the layers -/

variable [Stamped V X]

/-- `w` was written before `v`, or is `v`. -/
def Older (w v : V) : Prop := stamp w < stamp v ∨ w = v

theorem Older.refl (v : V) : Older v v := Or.inr rfl

theorem Older.stamp_le {w v : V} (h : Older w v) : stamp w ≤ stamp v := by
  rcases h with h | rfl
  · omega
  · exact Nat.le_refl _

theorem Older.trans {u v w : V} (h : Older u v) (h' : Older v w) : Older u w := by
  rcases h with h | rfl
  · have := h'.stamp_le
    exact Or.inl (by omega)
  · exact h'

/-- The older of two values, when it is the later one, is both. -/
theorem Older.eq_of_le {w v : V} (h : Older w v) (hle : stamp v ≤ stamp w) : w = v := by
  rcases h with h | h
  · omega
  · exact h

/-- Layer `a` holds nothing older than what `b` holds. -/
def Above (a b : Layer K V) : Prop := ∀ k v w, a k = some v → b k = some w → Older w v

theorem Above.self (a : Layer K V) : Above a a := by
  intro k v w hv hw
  rw [hv] at hw
  exact Or.inr (Option.some.inj hw).symm

/-- No layer holds a value later than one above it. -/
def Ordered (s : List (Layer K V)) : Prop := s.Pairwise Above

theorem Ordered.lookup_newest {s : List (Layer K V)} (h : Ordered s) {l : Layer K V} (hl : l ∈ s)
    {k : K} {v : V} (hv : l k = some v) : ∃ w, lookup s k = some w ∧ Older v w := by
  induction s with
  | nil => cases hl
  | cons a s ih =>
    obtain ⟨ha, hs⟩ := List.pairwise_cons.mp h
    rw [lookup_cons]
    cases hak : a k with
    | some w =>
      refine ⟨w, rfl, ?_⟩
      rcases List.mem_cons.mp hl with rfl | hl
      · rw [hak] at hv
        exact Or.inr (Option.some.inj hv).symm
      · exact ha l hl k w v hak hv
    | none =>
      rcases List.mem_cons.mp hl with rfl | hl
      · rw [hak] at hv
        cases hv
      · exact ih hs hl

/-- **Walking down and comparing stamps agree**: in an ordered stack the value with
the largest stamp is the first one met. -/
theorem Ordered.lookup_eq_of_max {s : List (Layer K V)} (h : Ordered s) {l : Layer K V}
    (hl : l ∈ s) {k : K} {v : V} (hv : l k = some v)
    (hmax : ∀ l' ∈ s, ∀ w, l' k = some w → stamp w ≤ stamp v) : lookup s k = some v := by
  obtain ⟨w, hw, hvw⟩ := h.lookup_newest hl hv
  obtain ⟨l', hl', hw'⟩ := exists_of_lookup hw
  rw [hw, hvw.eq_of_le (hmax l' hl' w hw')]

theorem Ordered.restrict {s : List (Layer K V)} (h : Ordered s) (p : K → Bool) :
    Ordered (s.map (restrict p)) := by
  refine List.pairwise_map.mpr (h.imp fun {a b} hab k v w hv hw => ?_)
  rw [CrashLogic.restrict] at hv hw
  by_cases hp : p k = true
  · rw [if_pos hp] at hv hw
    exact hab k v w hv hw
  · rw [if_neg hp] at hv
    cases hv

/-! ### What a stack shows -/

/-- What a layer holds. -/
def graph (l : Layer K V) : History K V := fun k v => l k = some v

/-- Every value of the stack was written. -/
def Within (s : List (Layer K V)) (H : History K V) : Prop :=
  ∀ l ∈ s, ∀ k v, l k = some v → H k v

theorem Within.mono {s : List (Layer K V)} {H H' : History K V} (h : Within s H) (hle : H ≤ H') :
    Within s H' :=
  fun l hl k v hv => hle k v (h l hl k v hv)

/-- The last value written to a key. -/
structure Newest (H : History K V) (k : K) (v : V) : Prop where
  mem : H k v
  max : ∀ w, H k w → Older w v

theorem Newest.unique {H : History K V} {k : K} {v w : V} (hv : Newest H k v) (hw : Newest H k w) :
    v = w :=
  (hw.max v hv.mem).eq_of_le (hv.max w hw.mem).stamp_le

/-- What a reader may be told about a key. -/
inductive Answer (H : History K V) (k : K) : Option V → Prop
  | found {v : V} (h : Newest H k v) : Answer H k (some v)
  | never (h : ∀ v, ¬ H k v) : Answer H k none
  | dropped {v : V} (h : Newest H k v) (hd : payload v = none) : Answer H k none

/-- For every value of `H` the history `B` has one that is not older. -/
def Dominates (B H : History K V) (k : K) : Prop := ∀ v, H k v → ∃ w, B k w ∧ Older v w

theorem Dominates.of_le {B H : History K V} {k : K} (h : ∀ v, H k v → B k v) : Dominates B H k :=
  fun v hv => ⟨v, h v hv, Older.refl v⟩

theorem Newest.lift {B H : History K V} {k : K} {v : V} (h : Newest B k v)
    (hle : ∀ v, B k v → H k v) (hdom : Dominates B H k) : Newest H k v where
  mem := hle v h.mem
  max w hw := by
    obtain ⟨u, hu, hwu⟩ := hdom w hw
    exact hwu.trans (h.max u hu)

/-- The answer for a history is one for every history it dominates. -/
theorem Answer.lift {B H : History K V} {k : K} {o : Option V} (h : Answer B k o)
    (hle : ∀ v, B k v → H k v) (hdom : Dominates B H k) : Answer H k o := by
  cases h with
  | found h => exact .found (h.lift hle hdom)
  | never h =>
    refine .never fun v hv => ?_
    obtain ⟨w, hw, _⟩ := hdom v hv
    exact h w hw
  | dropped h hd => exact .dropped (h.lift hle hdom) hd

/-- **Reading the stack answers for the history.** -/
def Shows (s : List (Layer K V)) (H : History K V) : Prop := ∀ k, Answer H k (lookup s k)

/-- Two stacks that read alike show the same. -/
theorem Shows.congr {s t : List (Layer K V)} {H : History K V} (h : Shows s H)
    (hk : ∀ k, lookup t k = lookup s k) : Shows t H := fun k => by
  rw [hk]
  exact h k

/-- The map that a history describes. -/
def Means (H : History K V) (m : K → Option X) : Prop :=
  ∀ k, (∀ v, ¬ H k v) ∧ m k = none ∨ ∃ v, Newest H k v ∧ payload v = m k

/-- A stack that shows a history reads as the map it describes. -/
theorem Shows.read {s : List (Layer K V)} {H : History K V} {m : K → Option X} (h : Shows s H)
    (hm : Means H m) (k : K) : (lookup s k).bind payload = m k := by
  have ha := h k
  generalize lookup s k = o at ha
  rcases hm k with ⟨hno, hmk⟩ | ⟨w, hw, hmk⟩
  · cases ha with
    | found h => exact absurd h.mem (hno _)
    | never h => exact hmk.symm
    | dropped h hd => exact absurd h.mem (hno _)
  · cases ha with
    | found h =>
      rw [Option.bind_some, h.unique hw]
      exact hmk
    | never h => exact absurd hw.mem (h w)
    | dropped h hd =>
      rw [← hmk, ← h.unique hw, hd]
      rfl

/-! ### One more value -/

/-- The history with one more value in it. -/
def History.add (H : History K V) (k : K) (v : V) : History K V :=
  fun k' v' => H k' v' ∨ k' = k ∧ v' = v

/-- A value later than the others of its key is the newest. -/
theorem Newest.add_key {H : History K V} {k : K} {v : V} (hlt : ∀ w, H k w → stamp w < stamp v) :
    Newest (H.add k v) k v where
  mem := Or.inr ⟨rfl, rfl⟩
  max w hw := by
    rcases hw with hw | ⟨_, rfl⟩
    · exact Or.inl (hlt w hw)
    · exact Older.refl w

/-- A value later than all others is the newest of its key. -/
theorem Newest.add {H : History K V} {k : K} {v : V} (hlt : ∀ k w, H k w → stamp w < stamp v) :
    Newest (H.add k v) k v := .add_key (hlt k)

/-- An older value changes nothing. -/
theorem Newest.add_older {H : History K V} {k k' : K} {u v : V} (h : Newest H k' u)
    (hv : k' = k → Older v u) : Newest (H.add k v) k' u where
  mem := Or.inl h.mem
  max w hw := by
    rcases hw with hw | ⟨hk, rfl⟩
    · exact h.max w hw
    · exact hv hk

theorem History.add_of_ne {H : History K V} {k k' : K} (v : V) (hne : k' ≠ k) (w : V) :
    H k' w ↔ H.add k v k' w :=
  ⟨Or.inl, fun h => h.resolve_right fun e => hne e.1⟩

theorem Means.add [DecidableEq K] {H : History K V} {m : K → Option X} (h : Means H m) {k : K}
    {v : V} (hlt : ∀ k w, H k w → stamp w < stamp v) :
    Means (H.add k v) (Function.update m k (payload v)) := by
  intro k'
  by_cases hk : k' = k
  · subst hk
    exact Or.inr ⟨v, .add hlt, by rw [Function.update_self]⟩
  · rw [Function.update_of_ne hk]
    rcases h k' with ⟨hno, hm⟩ | ⟨w, hw, hm⟩
    · exact Or.inl ⟨fun v' hv' => hno v' ((History.add_of_ne v hk v').mpr hv'), hm⟩
    · refine Or.inr ⟨w, ⟨Or.inl hw.mem, fun u hu => ?_⟩, hm⟩
      exact hw.max u ((History.add_of_ne v hk u).mpr hu)

/-! ### Compaction -/

/-- A stack with some adjacent layers merged.  Over other layers the merge keeps
every value; at the bottom it may drop those without payload. -/
inductive Compacts : List (Layer K V) → List (Layer K V) → Prop
  | keep {top mid bot : List (Layer K V)} {l : Layer K V} (h : ∀ k, l k = lookup mid k) :
      Compacts (top ++ mid ++ bot) (top ++ l :: bot)
  | drop {top mid : List (Layer K V)} {l : Layer K V}
      (h : ∀ k, l k = (lookup mid k).filter fun v => (payload v).isSome) :
      Compacts (top ++ mid) (top ++ [l])
  | clear {top mid : List (Layer K V)}
      (h : ∀ k v, lookup mid k = some v → payload v = none) : Compacts (top ++ mid) top

theorem Ordered.merge {top mid bot : List (Layer K V)} {l : Layer K V}
    (h : Ordered (top ++ mid ++ bot)) (hl : ∀ k v, l k = some v → lookup mid k = some v) :
    Ordered (top ++ l :: bot) := by
  rw [Ordered, List.append_assoc, List.pairwise_append, List.pairwise_append] at h
  obtain ⟨htop, ⟨_, hbot, hmb⟩, htm⟩ := h
  have hmid : ∀ k v, l k = some v → ∃ b ∈ mid, b k = some v :=
    fun k v hv => exists_of_lookup (hl k v hv)
  refine List.pairwise_append.mpr ⟨htop, List.pairwise_cons.mpr ⟨fun b hb k v w hv hw => ?_, hbot⟩,
    fun a ha b hb => ?_⟩
  · obtain ⟨c, hc, hcv⟩ := hmid k v hv
    exact hmb c hc b hb k v w hcv hw
  · rcases List.mem_cons.mp hb with rfl | hb
    · intro k v w hv hw
      obtain ⟨c, hc, hcw⟩ := hmid k w hw
      exact htm a ha c (List.mem_append_left _ hc) k v w hv hcw
    · exact htm a ha b (List.mem_append_right _ hb)

theorem Within.merge {top mid bot : List (Layer K V)} {l : Layer K V} {H : History K V}
    (h : Within (top ++ mid ++ bot) H) (hl : ∀ k v, l k = some v → lookup mid k = some v) :
    Within (top ++ l :: bot) H := by
  intro a ha k v hv
  rcases List.mem_append.mp ha with ha | ha
  · exact h a (List.mem_append_left _ (List.mem_append_left _ ha)) k v hv
  · rcases List.mem_cons.mp ha with rfl | ha
    · obtain ⟨c, hc, hcv⟩ := exists_of_lookup (hl k v hv)
      exact h c (List.mem_append_left _ (List.mem_append_right _ hc)) k v hcv
    · exact h a (List.mem_append_right _ ha) k v hv

namespace Compacts

variable {s s' : List (Layer K V)}

theorem ordered (h : Compacts s s') (hs : Ordered s) : Ordered s' := by
  cases h with
  | keep h => exact hs.merge fun k v hv => by rw [← h, hv]
  | @drop top mid l h =>
    rw [← List.append_nil (top ++ mid)] at hs
    refine hs.merge fun k v hv => ?_
    rw [h, Option.filter_eq_some_iff] at hv
    exact hv.1
  | clear h => exact (List.pairwise_append.mp hs).1

theorem within {H : History K V} (h : Compacts s s') (hs : Within s H) : Within s' H := by
  cases h with
  | keep h => exact hs.merge fun k v hv => by rw [← h, hv]
  | @drop top mid l h =>
    rw [← List.append_nil (top ++ mid)] at hs
    refine hs.merge fun k v hv => ?_
    rw [h, Option.filter_eq_some_iff] at hv
    exact hv.1
  | clear h => exact fun a ha => hs a (List.mem_append_left _ ha)

/-- Where the merge lost an answer, the answer was a value without payload. -/
theorem lookup_eq (h : Compacts s s') (k : K) :
    lookup s' k = lookup s k ∨
      lookup s' k = none ∧ ∃ v, lookup s k = some v ∧ payload v = none := by
  cases h with
  | @keep top mid bot l h =>
    refine Or.inl ?_
    rw [lookup_append, lookup_cons, h, lookup_append, lookup_append, Option.or_assoc]
  | @drop top mid l h =>
    rw [lookup_append, lookup_append, lookup_cons, lookup_nil, h, Option.or_none]
    cases lookup top k with
    | some v => exact Or.inl rfl
    | none =>
      rw [Option.none_or, Option.none_or]
      cases hm : lookup mid k with
      | none => exact Or.inl rfl
      | some v =>
        cases hp : payload v with
        | some x => exact Or.inl (by simp [Option.filter, hp])
        | none => exact Or.inr ⟨by simp [Option.filter, hp], v, rfl, hp⟩
  | @clear _ mid h =>
    rw [lookup_append]
    cases lookup s' k with
    | some v => exact Or.inl rfl
    | none =>
      rw [Option.none_or]
      cases hm : lookup mid k with
      | none => exact Or.inl rfl
      | some v => exact Or.inr ⟨rfl, v, rfl, h k v hm⟩

/-- **Compaction changes no answer.** -/
theorem shows {H : History K V} (h : Compacts s s') (hs : Shows s H) : Shows s' H := by
  intro k
  have ha := hs k
  rcases h.lookup_eq k with he | ⟨he, v, hv, hp⟩
  · rw [he]
    exact ha
  · rw [hv] at ha
    cases ha with
    | found hn =>
      rw [he]
      exact .dropped hn hp

end Compacts

/-! ### Layers in memory over layers on a shelf

A store keeps its newest layers in memory and the others on a shelf, where they are
safe.  `B` is the history the shelf shows, `H` all that was written. -/

/-- The shelf shows the history `B`, whose stamps are below `n`. -/
structure Settled (n : Nat) (B : History K V) (ts : List (Layer K V)) : Prop where
  ordered : Ordered ts
  within : Within ts B
  shows : Shows ts B
  below : ∀ k v, B k v → stamp v < n

/-- The shelf shows all of `A` and nothing but `H`. -/
def Between (A H : History K V) (n : Nat) (ts : List (Layer K V)) : Prop :=
  ∃ B, A ≤ B ∧ B ≤ H ∧ Settled n B ts

/-- The layers `ms` in memory know the newest value of every key that the shelf does
not. -/
structure Stacked (H B : History K V) (n : Nat) (ms ts : List (Layer K V)) : Prop where
  shelf : Settled n B ts
  le : B ≤ H
  ordered : Ordered ms
  within : Within ms H
  later : ∀ a ∈ ms, ∀ k v w, a k = some v → B k w → Older w v
  newest : ∀ k v, lookup ms k = some v → Newest H k v
  rest : ∀ k, lookup ms k = none → Dominates B H k

theorem Settled.compacts {n : Nat} {B : History K V} {ts ts' : List (Layer K V)}
    (h : Settled n B ts) (hc : Compacts ts ts') : Settled n B ts' :=
  ⟨hc.ordered h.ordered, hc.within h.within, hc.shows h.shows, h.below⟩

theorem Settled.between {n : Nat} {B : History K V} {ts : List (Layer K V)} (h : Settled n B ts) :
    Between B B n ts :=
  ⟨B, fun _ _ h => h, fun _ _ h => h, h⟩

theorem Between.mono {A A' H H' : History K V} {n : Nat} {ts : List (Layer K V)}
    (h : Between A H n ts) (hA : A' ≤ A) (hH : H ≤ H') : Between A' H' n ts := by
  obtain ⟨B, hB, hBH, hs⟩ := h
  exact ⟨B, fun k v h => hB k v (hA k v h), fun k v h => hH k v (hBH k v h), hs⟩

theorem Between.compacts {A H : History K V} {n : Nat} {ts ts' : List (Layer K V)}
    (h : Between A H n ts) (hc : Compacts ts ts') : Between A H n ts' := by
  obtain ⟨B, hB, hBH, hs⟩ := h
  exact ⟨B, hB, hBH, hs.compacts hc⟩

namespace Stacked

variable {H B : History K V} {n : Nat} {ms ts ts' : List (Layer K V)} {a f : Layer K V}

theorem shows (h : Stacked H B n ms ts) : Shows (ms ++ ts) H := by
  intro k
  rw [lookup_append]
  cases hm : lookup ms k with
  | some v => exact .found (h.newest k v hm)
  | none =>
    rw [Option.none_or]
    exact (h.shelf.shows k).lift (h.le k) (h.rest k hm)

theorem stack_ordered (h : Stacked H B n ms ts) : Ordered (ms ++ ts) :=
  List.pairwise_append.mpr ⟨h.ordered, h.shelf.ordered, fun a ha b hb k v w hv hw =>
    h.later a ha k v w hv (h.shelf.within b hb k w hw)⟩

theorem stack_within (h : Stacked H B n ms ts) : Within (ms ++ ts) H := by
  intro l hl
  rcases List.mem_append.mp hl with hl | hl
  · exact h.within l hl
  · exact fun k v hv => h.le k v (h.shelf.within l hl k v hv)

theorem compacts (h : Stacked H B n ms ts) (hc : Compacts ts ts') : Stacked H B n ms ts' :=
  { h with shelf := h.shelf.compacts hc }

theorem raise {m : Nat} (h : Stacked H B n ms ts) (hn : n ≤ m) : Stacked H B m ms ts :=
  { h with shelf := { h.shelf with below := fun k v hv => (h.shelf.below k v hv).trans_le hn } }

/-- A value later than the others of its key goes to the top layer. -/
theorem insert [DecidableEq K] (h : Stacked H B n (a :: ms) ts) {k : K} {v : V}
    (hlt : ∀ w, H k w → stamp w < stamp v) :
    Stacked (H.add k v) B n (Function.update a k (some v) :: ms) ts := by
  have hself : Function.update a k (some v) k = some v := Function.update_self ..
  have hne : ∀ k', k' ≠ k → Function.update a k (some v) k' = a k' :=
    fun k' hk => Function.update_of_ne hk ..
  have hold : ∀ w, H k w → Older w v := fun w hw => Or.inl (hlt w hw)
  have hle : B ≤ H.add k v := fun k' w hw => Or.inl (h.le k' w hw)
  obtain ⟨ha, hms⟩ := List.pairwise_cons.mp h.ordered
  refine ⟨h.shelf, hle, List.pairwise_cons.mpr ⟨?_, hms⟩, ?_, ?_, ?_, ?_⟩
  · intro b hb k' v' w hv' hw
    by_cases hk : k' = k
    · subst hk
      rw [hself] at hv'
      rw [← Option.some.inj hv']
      exact hold w (h.within b (List.mem_cons_of_mem _ hb) k' w hw)
    · rw [hne k' hk] at hv'
      exact ha b hb k' v' w hv' hw
  · intro l hl k' w hw
    rcases List.mem_cons.mp hl with rfl | hl
    · by_cases hk : k' = k
      · subst hk
        rw [hself] at hw
        exact Or.inr ⟨rfl, (Option.some.inj hw).symm⟩
      · rw [hne k' hk] at hw
        exact Or.inl (h.within a List.mem_cons_self k' w hw)
    · exact Or.inl (h.within l (List.mem_cons_of_mem _ hl) k' w hw)
  · intro l hl k' v' w hv' hw
    rcases List.mem_cons.mp hl with rfl | hl
    · by_cases hk : k' = k
      · subst hk
        rw [hself] at hv'
        rw [← Option.some.inj hv']
        exact hold w (h.le k' w hw)
      · rw [hne k' hk] at hv'
        exact h.later a List.mem_cons_self k' v' w hv' hw
    · exact h.later l (List.mem_cons_of_mem _ hl) k' v' w hv' hw
  · intro k' v' hv'
    rw [lookup_cons] at hv'
    by_cases hk : k' = k
    · subst hk
      rw [hself, Option.some_or] at hv'
      rw [← Option.some.inj hv']
      exact .add_key hlt
    · rw [hne k' hk, ← lookup_cons] at hv'
      have hn := h.newest k' v' hv'
      exact ⟨Or.inl hn.mem, fun w hw => hn.max w ((History.add_of_ne v hk w).mpr hw)⟩
  · intro k' hno
    rw [lookup_cons] at hno
    by_cases hk : k' = k
    · subst hk
      rw [hself, Option.some_or] at hno
      cases hno
    · rw [hne k' hk, ← lookup_cons] at hno
      exact fun w hw => h.rest k' hno w ((History.add_of_ne v hk w).mpr hw)

/-- A value later than all others goes to the top layer. -/
theorem put [DecidableEq K] (h : Stacked H B n (a :: ms) ts) {k : K} {v : V}
    (hlt : ∀ k w, H k w → stamp w < stamp v) :
    Stacked (H.add k v) B n (Function.update a k (some v) :: ms) ts := h.insert (hlt k)

/-- A value older than what the top layer has is left out. -/
theorem skip (h : Stacked H B n (a :: ms) ts) {k : K} {u v : V} (hu : a k = some u)
    (hlt : stamp v < stamp u) : Stacked (H.add k v) B n (a :: ms) ts where
  shelf := h.shelf
  le k' w hw := Or.inl (h.le k' w hw)
  ordered := h.ordered
  within l hl k' w hw := Or.inl (h.within l hl k' w hw)
  later := h.later
  newest k' w hw := by
    refine (h.newest k' w hw).add_older fun hk => ?_
    rw [hk, lookup_cons, hu, Option.some_or] at hw
    obtain rfl := Option.some.inj hw
    exact Or.inl hlt
  rest k' hno w hw := by
    rcases hw with hw | ⟨rfl, rfl⟩
    · exact h.rest k' hno w hw
    · rw [lookup_cons, hu, Option.some_or] at hno
      cases hno

/-- Below the top layer, and on the shelf, all stamps are below `b`: a value from `b` on that
the top layer has nothing newer than is later than the others of its key. -/
theorem lt_of_top (h : Stacked H B n (a :: ms) ts) {b : Nat} {k : K} {v : V} (hn : n ≤ b)
    (hms : ∀ l ∈ ms, ∀ k w, l k = some w → stamp w < b) (hb : b ≤ stamp v)
    (htop : ∀ u, a k = some u → stamp u < stamp v) (w : V) (hw : H k w) : stamp w < stamp v := by
  cases hk : lookup (a :: ms) k with
  | some u =>
    have hle := ((h.newest k u hk).max w hw).stamp_le
    rw [lookup_cons, Option.or_eq_some_iff] at hk
    rcases hk with hk | ⟨_, hk⟩
    · have := htop u hk
      omega
    · obtain ⟨l, hl, hlk⟩ := exists_of_lookup hk
      have := hms l hl k u hlk
      omega
  | none =>
    obtain ⟨u, hu, hwu⟩ := h.rest k hk w hw
    have hlt := h.shelf.below k u hu
    have hle := hwu.stamp_le
    omega

/-- A fresh layer on top changes nothing. -/
theorem fresh (h : Stacked H B n ms ts) (ha : ∀ k, a k = none) : Stacked H B n (a :: ms) ts where
  shelf := h.shelf
  le := h.le
  ordered := by
    refine List.pairwise_cons.mpr ⟨fun b _ k v w hv => ?_, h.ordered⟩
    rw [ha] at hv
    cases hv
  within l hl k v hv := by
    rcases List.mem_cons.mp hl with rfl | hl
    · rw [ha] at hv
      cases hv
    · exact h.within l hl k v hv
  later l hl k v w hv hw := by
    rcases List.mem_cons.mp hl with rfl | hl
    · rw [ha] at hv
      cases hv
    · exact h.later l hl k v w hv hw
  newest k v hv := h.newest k v (lookup_cons_none (ha k) ms ▸ hv)
  rest k hno := h.rest k (lookup_cons_none (ha k) ms ▸ hno)

/-- **The lowest layer in memory is put on the shelf.**  It is still in memory. -/
theorem install {m : Nat} (h : Stacked H B n (ms ++ [f]) ts) (hn : n ≤ m)
    (hm : ∀ k v, f k = some v → stamp v < m) :
    Stacked H (B ⊔ graph f) m (ms ++ [f]) (f :: ts) := by
  have hf : f ∈ ms ++ [f] := List.mem_append_right _ List.mem_cons_self
  have hfH : ∀ k v, f k = some v → H k v := h.within f hf
  have hle : (B ⊔ graph f) ≤ H := fun k v hv => hv.elim (h.le k v) (hfH k v)
  obtain ⟨hms, _, hmf⟩ := List.pairwise_append.mp h.ordered
  refine ⟨⟨?_, ?_, ?_, ?_⟩, hle, h.ordered, h.within, ?_, h.newest, ?_⟩
  · refine List.pairwise_cons.mpr ⟨fun b hb k v w hv hw => ?_, h.shelf.ordered⟩
    exact h.later f hf k v w hv (h.shelf.within b hb k w hw)
  · intro l hl k v hv
    rcases List.mem_cons.mp hl with rfl | hl
    · exact Or.inr hv
    · exact Or.inl (h.shelf.within l hl k v hv)
  · intro k
    rw [lookup_cons]
    cases hk : f k with
    | some v =>
      refine .found ⟨Or.inr hk, fun w hw => ?_⟩
      rcases hw with hw | hw
      · exact h.later f hf k v w hk hw
      · exact Above.self f k v w hk hw
    | none =>
      rw [Option.none_or]
      refine (h.shelf.shows k).lift (fun v hv => Or.inl hv) (Dominates.of_le fun v hv => ?_)
      refine hv.resolve_right fun he => ?_
      change f k = some v at he
      rw [hk] at he
      cases he
  · intro k v hv
    rcases hv with hv | hv
    · exact Nat.lt_of_lt_of_le (h.shelf.below k v hv) hn
    · exact hm k v hv
  · intro l hl k v w hv hw
    rcases hw with hw | hw
    · exact h.later l hl k v w hv hw
    · rcases List.mem_append.mp hl with hl | hl
      · exact hmf l hl f List.mem_cons_self k v w hv hw
      · obtain rfl := List.mem_singleton.mp hl
        exact Above.self l k v w hv hw
  · intro k hno v hv
    obtain ⟨w, hw, hvw⟩ := h.rest k hno v hv
    exact ⟨w, Or.inl hw, hvw⟩

/-- What is on the shelf may leave the memory. -/
theorem discard (h : Stacked H B n (ms ++ [f]) ts) (hf : ∀ k v, f k = some v → B k v) :
    Stacked H B n ms ts where
  shelf := h.shelf
  le := h.le
  ordered := (List.pairwise_append.mp h.ordered).1
  within l hl := h.within l (List.mem_append_left _ hl)
  later l hl := h.later l (List.mem_append_left _ hl)
  newest k v hv := by
    apply h.newest k v
    rw [lookup_append, hv, Option.some_or]
  rest k hno := by
    cases hk : f k with
    | none =>
      apply h.rest k
      rw [lookup_append, hno, Option.none_or, lookup_cons, hk, lookup_nil, Option.none_or]
    | some w =>
      intro v hv
      have hn : Newest H k w := by
        apply h.newest k w
        rw [lookup_append, hno, Option.none_or, lookup_cons, hk, Option.some_or]
      exact ⟨w, hf k w hk, hn.max v hv⟩

/-- **With nothing in memory the shelf shows everything.** -/
theorem settled (h : Stacked H B n ms ts) (hms : ∀ k, lookup ms k = none) : Settled n H ts where
  ordered := h.shelf.ordered
  within := h.shelf.within.mono h.le
  shows k := (h.shelf.shows k).lift (h.le k) (h.rest k (hms k))
  below k v hv := by
    obtain ⟨w, hw, hvw⟩ := h.rest k (hms k) v hv
    exact Nat.lt_of_le_of_lt hvw.stamp_le (h.shelf.below k w hw)

/-- A memory with nothing in it is over a shelf that shows everything. -/
theorem settle (h : Stacked H B n ms ts) (hms : ∀ k, lookup ms k = none) :
    Stacked H H n ms ts where
  shelf := h.settled hms
  le := le_refl H
  ordered := h.ordered
  within := h.within
  later l hl k v w hv _ := by
    rw [lookup_eq_none.mp (hms k) l hl] at hv
    cases hv
  newest := h.newest
  rest k _ := Dominates.of_le fun _ hv => hv

end Stacked

/-! ### A replayed layer -/

/-- The values of a list of pairs. -/
def History.ofList (es : List (K × V)) : History K V := fun k v => (k, v) ∈ es

omit [Stamped V X] in
theorem History.sup_ofList_nil (H : History K V) : H ⊔ History.ofList [] = H := by
  funext k v
  exact propext ⟨fun h => h.resolve_right List.not_mem_nil, Or.inl⟩

omit [Stamped V X] in
theorem History.sup_ofList_cons (H : History K V) (e : K × V) (es : List (K × V)) :
    H ⊔ History.ofList (e :: es) = H.add e.1 e.2 ⊔ History.ofList es := by
  funext k v
  refine propext ⟨fun h => ?_, fun h => ?_⟩
  · rcases h with h | h
    · exact Or.inl (Or.inl h)
    · rcases List.mem_cons.mp h with h | h
      · exact Or.inl (Or.inr ⟨congrArg Prod.fst h, congrArg Prod.snd h⟩)
      · exact Or.inr h
  · rcases h with (h | ⟨hk, hv⟩) | h
    · exact Or.inl h
    · exact Or.inr (List.mem_cons.mpr (Or.inl (Prod.ext hk hv)))
    · exact Or.inr (List.mem_cons_of_mem _ h)

/-- The layer holds, for every key of `W`, the newest value. -/
structure Replays (a : Layer K V) (W : History K V) : Prop where
  found : ∀ k v, a k = some v → Newest W k v
  missing : ∀ k, a k = none → ∀ v, ¬ W k v

/-- No two values of a key have one stamp. -/
def Coherent (H : History K V) : Prop :=
  ∀ k v w, H k v → H k w → stamp v = stamp w → v = w

theorem Coherent.mono {H H' : History K V} (h : Coherent H') (hle : H ≤ H') : Coherent H :=
  fun k v w hv hw => h k v w (hle k v hv) (hle k w hw)

/-- A value no later than the layer's own is left out. -/
theorem Replays.keep {a : Layer K V} {W : History K V} (h : Replays a W) {k : K} {v u : V}
    (hco : Coherent (W.add k v)) (hu : a k = some u) (hle : stamp v ≤ stamp u) :
    Replays a (W.add k v) where
  found k' u' hu' := by
    have hn := h.found k' u' hu'
    refine ⟨Or.inl hn.mem, fun w hw => ?_⟩
    rcases hw with hw | ⟨rfl, rfl⟩
    · exact hn.max w hw
    · rw [hu] at hu'
      obtain rfl := Option.some.inj hu'
      rcases Nat.lt_or_eq_of_le hle with hlt | heq
      · exact Or.inl hlt
      · exact Or.inr (hco k' w u (Or.inr ⟨rfl, rfl⟩) (Or.inl hn.mem) heq)
  missing k' hno w hw := by
    rcases hw with hw | ⟨rfl, rfl⟩
    · exact h.missing k' hno w hw
    · rw [hu] at hno
      cases hno

/-- A value later than the layer's own takes its place. -/
theorem Replays.insert [DecidableEq K] {a : Layer K V} {W : History K V} (h : Replays a W) {k : K}
    {v : V} (hlt : ∀ u, a k = some u → stamp u < stamp v) :
    Replays (Function.update a k (some v)) (W.add k v) where
  found k' u hu := by
    by_cases hk : k' = k
    · subst hk
      rw [Function.update_self] at hu
      obtain rfl := Option.some.inj hu
      refine ⟨Or.inr ⟨rfl, rfl⟩, fun w hw => ?_⟩
      rcases hw with hw | ⟨_, rfl⟩
      · cases ha : a k' with
        | none => exact absurd hw (h.missing k' ha w)
        | some u' =>
          have hle := ((h.found k' u' ha).max w hw).stamp_le
          have := hlt u' ha
          exact Or.inl (by omega)
      · exact Older.refl w
    · rw [Function.update_of_ne hk] at hu
      have hn := h.found k' u hu
      exact ⟨Or.inl hn.mem, fun w hw => hn.max w ((History.add_of_ne v hk w).mpr hw)⟩
  missing k' hno w hw := by
    by_cases hk : k' = k
    · subst hk
      rw [Function.update_self] at hno
      cases hno
    · rw [Function.update_of_ne hk] at hno
      exact h.missing k' hno w ((History.add_of_ne v hk w).mpr hw)

/-- For the keys of `W` nothing is newer than `W`, and for the other keys `B` has the
newest values. -/
structure Covers (W B H : History K V) : Prop where
  newest : ∀ k v, Newest W k v → Newest H k v
  rest : ∀ k, (∀ v, ¬ W k v) → Dominates B H k
  within : W ≤ H
  le : B ≤ H

/-- Values written after all those of `A` cover what `A` and they hold together. -/
theorem Covers.of_later {A B W : History K V} (hA : A ≤ B) (hB : B ≤ A ⊔ W)
    (hlate : ∀ k v w, A k v → W k w → Older v w) : Covers W B (A ⊔ W) where
  newest k v hv := ⟨Or.inr hv.mem, fun w hw => hw.elim (fun ha => hlate k w v ha hv.mem) (hv.max w)⟩
  rest k hno := Dominates.of_le fun v hv => hA k v (hv.resolve_right (hno v))
  within _ _ hw := Or.inr hw
  le := hB

/-- **A layer replayed from a log, over the shelf.** -/
theorem Stacked.replay {a : Layer K V} {W B H : History K V} {n : Nat} {ts : List (Layer K V)}
    (ha : Replays a W) (hc : Covers W B H) (hs : Settled n B ts) : Stacked H B n [a] ts where
  shelf := hs
  le := hc.le
  ordered := List.pairwise_singleton ..
  within l hl k v hv := by
    obtain rfl := List.mem_singleton.mp hl
    exact hc.within k v (ha.found k v hv).mem
  later l hl k v w hv hw := by
    obtain rfl := List.mem_singleton.mp hl
    exact (hc.newest k v (ha.found k v hv)).max w (hc.le k w hw)
  newest k v hv := by
    rw [lookup_cons, lookup_nil, Option.or_none] at hv
    exact hc.newest k v (ha.found k v hv)
  rest k hno := by
    rw [lookup_cons, lookup_nil, Option.or_none] at hno
    exact hc.rest k (ha.missing k hno)

end Layers

end CrashLogic
