import AccretionDb.Lib.Bytes
import Mathlib.Data.List.DropRight

/-! # Versions

Which tables exist and which tier each one lives in.  A version is a value: a flush
and a compaction derive the next one from it.
-/

namespace AccretionDb

open CrashLogic

structure TableMeta where
  id : Nat
  numEntries : Nat
  firstKey : Bytes
  lastKey : Bytes
  deriving DecidableEq, Repr

def TableMeta.keyInRange (table : TableMeta) (key : Bytes) : Bool :=
  decide (table.firstKey ≤ key ∧ key ≤ table.lastKey)

structure Version where
  tiers : List (List TableMeta)
  nextSeq : Nat
  nextTableId : Nat
  deriving DecidableEq, Repr

namespace Version

def empty : Version := ⟨[], 1, 1⟩

def allTables (v : Version) : List TableMeta := v.tiers.flatten

def referencedIds (v : Version) : List Nat := v.allTables.map TableMeta.id

def tierLen (v : Version) (t : Nat) : Nat := (v.tiers[t]?.map List.length).getD 0

def numTiers (v : Version) : Nat := v.tiers.length

/-- Youngest tier first, and in a tier the last table first. -/
def tablesNewestFirst (v : Version) : List TableMeta := v.tiers.flatMap List.reverse

/-- The version with one more table in tier 0. -/
def flushed (v : Version) (table : TableMeta) (nextSeq : Nat) : Version where
  tiers := match v.tiers with
    | [] => [[table]]
    | tier :: tiers => (tier ++ [table]) :: tiers
  nextSeq := max nextSeq v.nextSeq
  nextTableId := max v.nextTableId (table.id + 1)

/-- Trailing empty tiers go. -/
def trim (tiers : List (List TableMeta)) : List (List TableMeta) :=
  tiers.rdropWhile fun tier => tier.isEmpty

/-- The version with all of tier `t` replaced by one table in tier `t + 1`. -/
def compacted (v : Version) (t : Nat) (output : TableMeta) : Version where
  tiers := trim
    (((v.tiers ++ List.replicate (t + 2 - v.tiers.length) []).set t []).modify (t + 1)
      fun tier => tier ++ [output])
  nextSeq := v.nextSeq
  nextTableId := max v.nextTableId (output.id + 1)

/-- The version without the tables of tier `t`: what `compact_tier` installs when
nothing came out of the merge. -/
def cleared (v : Version) (t : Nat) : Version :=
  { v with tiers := trim (v.tiers.set t []) }

/-! ### The tables of a derived version -/

theorem mem_tablesNewestFirst {v : Version} {table : TableMeta} :
    table ∈ v.tablesNewestFirst ↔ table ∈ v.allTables := by
  simp only [tablesNewestFirst, allTables, List.mem_flatMap, List.mem_reverse, List.mem_flatten]

theorem flatMap_reverse_trim (tiers : List (List TableMeta)) :
    (trim tiers).flatMap List.reverse = tiers.flatMap List.reverse := by
  induction tiers using List.reverseRecOn with
  | nil => rfl
  | append_singleton tiers tier ih =>
    rw [trim, List.rdropWhile_concat]
    by_cases h : tier.isEmpty = true
    · rw [if_pos h, ← trim, ih, List.flatMap_append, List.flatMap_singleton,
        List.isEmpty_iff.mp h, List.reverse_nil, List.append_nil]
    · rw [if_neg h]

/-- Only what is behind the last tier with a table goes. -/
theorem trim_append_cons (xs : List (List TableMeta)) {tier : List TableMeta} (h : tier ≠ [])
    (ys : List (List TableMeta)) : trim (xs ++ tier :: ys) = xs ++ tier :: trim ys := by
  induction ys using List.reverseRecOn with
  | nil =>
    rw [trim, List.rdropWhile_concat_neg _ _ _ (by simpa using h)]
    rfl
  | append_singleton ys last ih =>
    rw [← List.cons_append, ← List.append_assoc, trim, List.rdropWhile_concat, trim,
      List.rdropWhile_concat]
    by_cases hl : last.isEmpty = true
    · rw [if_pos hl, if_pos hl]
      exact ih
    · rw [if_neg hl, if_neg hl, List.append_assoc, List.cons_append]

theorem trim_eq_nil {tiers : List (List TableMeta)} (h : ∀ tier ∈ tiers, tier = []) :
    trim tiers = [] :=
  List.rdropWhile_eq_nil_iff.mpr fun tier ht => List.isEmpty_iff.mpr (h tier ht)

theorem flushed_newestFirst (v : Version) (table : TableMeta) (nextSeq : Nat) :
    (v.flushed table nextSeq).tablesNewestFirst = table :: v.tablesNewestFirst := by
  unfold flushed tablesNewestFirst
  cases v.tiers with
  | nil => rfl
  | cons tier tiers =>
    simp only [List.flatMap_cons, List.reverse_append, List.reverse_singleton, List.cons_append,
      List.nil_append]

/-- The tiers above tier `t`, tier `t`, and the tiers below. -/
theorem exists_split {v : Version} {t : Nat} (ht : t < v.tiers.length) :
    ∃ above inputs below, v.tiers = above ++ inputs :: below ∧ above.length = t ∧
      v.tiers[t]? = some inputs := by
  refine ⟨v.tiers.take t, v.tiers[t], v.tiers.drop (t + 1), ?_, ?_, List.getElem?_eq_getElem ht⟩
  · rw [List.getElem_cons_drop, List.take_append_drop]
  · rw [List.length_take]
    omega

section Split

variable {v : Version} {above below : List (List TableMeta)} {inputs : List TableMeta}

theorem newestFirst_split (h : v.tiers = above ++ inputs :: below) : v.tablesNewestFirst =
    above.flatMap List.reverse ++ inputs.reverse ++ below.flatMap List.reverse := by
  rw [tablesNewestFirst, h, List.flatMap_append, List.flatMap_cons, List.append_assoc]

theorem cleared_newestFirst (h : v.tiers = above ++ inputs :: below) :
    (v.cleared above.length).tablesNewestFirst =
      above.flatMap List.reverse ++ below.flatMap List.reverse := by
  rw [tablesNewestFirst, cleared, flatMap_reverse_trim, h, List.set_append_right _ _ (Nat.le_refl _),
    Nat.sub_self, List.set_cons_zero, List.flatMap_append, List.flatMap_cons, List.reverse_nil,
    List.nil_append]

theorem compacted_tiers (h : v.tiers = above ++ inputs :: below) (output : TableMeta) :
    (v.compacted above.length output).tiers =
      trim (above ++ [] :: (below.headD [] ++ [output]) :: below.tail) := by
  have hpad : (v.tiers ++ List.replicate (above.length + 2 - v.tiers.length) []) =
      above ++ inputs :: below.headD [] :: below.tail := by
    rw [h]
    cases below with
    | nil =>
      have hlen : above.length + 2 - (above ++ [inputs]).length = 1 := by
        rw [List.length_append, List.length_singleton]
        omega
      rw [hlen, List.append_assoc]
      rfl
    | cons tier below =>
      have hlen : above.length + 2 - (above ++ inputs :: tier :: below).length = 0 := by
        simp only [List.length_append, List.length_cons]
        omega
      rw [hlen, List.replicate_zero, List.append_nil]
      rfl
  rw [compacted, hpad, List.set_append_right _ _ (Nat.le_refl _), Nat.sub_self, List.set_cons_zero,
    modify_append_right]
  rfl

theorem compacted_newestFirst (h : v.tiers = above ++ inputs :: below) (output : TableMeta) :
    (v.compacted above.length output).tablesNewestFirst =
      above.flatMap List.reverse ++ output :: below.flatMap List.reverse := by
  rw [tablesNewestFirst, compacted_tiers h, flatMap_reverse_trim, List.flatMap_append,
    List.flatMap_cons, List.flatMap_cons, List.reverse_nil, List.nil_append, List.reverse_append,
    List.reverse_singleton, List.singleton_append, List.cons_append]
  cases below <;> rfl

end Split

end Version

end AccretionDb
