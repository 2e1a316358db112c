import AccretionDb.Compaction.Tier

/-! # What a cascade makes of a version

At the end of a flush, compactions run until no tier has `tier_fanout` tables.  With
a fanout of two or more every pass leaves fewer tables.  With a smaller one a pass
may just move a table down, so whether the loop ends depends on what the tables hold.
Here a pass is what it makes of the version and its tables when no call fails and no
file is in the way; the loop on a storage takes these passes (`wpE_cascade_passes`).
-/

namespace AccretionDb

open CrashLogic

/-- The youngest tier that has reached the fanout. -/
def firstFull (fanout : Nat) (v : Version) : Option Nat :=
  (List.range v.numTiers).find? fun t => decide (v.tierLen t ≥ fanout)

/-- The versions of a loop that has ended after at most so many passes; `none` as long as
it has not. -/
def settle (fanout : Nat) : Nat → Version → Contents → Option (Version × Contents)
  | 0, _, _ => none
  | passes + 1, v, T =>
    match firstFull fanout v with
    | none => some (v, T)
    | some t => (compactTier v T t).bind fun x => settle fanout passes x.1 x.2

/-- Every tier has fewer tables than the fanout. -/
def Version.Balanced (v : Version) (fanout : Nat) : Prop := ∀ t < v.numTiers, v.tierLen t < fanout

/-- The loop ends within so many passes. -/
def SettlesIn (fanout passes : Nat) (v : Version) (T : Contents) : Prop :=
  (settle fanout passes v T).isSome = true

/-- A loop that ends does so within so many passes. -/
def Version.passBound (v : Version) : Nat := v.tablesNewestFirst.length + v.numTiers + 2

/-- What every version of the engine satisfies: the tables are those its metadata
describes, their ids are taken, and the versions of a key get older from one to the
next. -/
structure Arranged (v : Version) (T : Contents) : Prop where
  describes : v.Describes T
  below : ∀ table ∈ v.allTables, table.id < v.nextTableId
  ordered : Ordered (v.layers T)

/-- No key has a value. -/
def Version.Lifeless (v : Version) (T : Contents) : Prop := ∀ key, v.get T key = none

theorem Arranged.free {v : Version} {T : Contents} (h : Arranged v T) :
    v.nextTableId ∉ v.referencedIds := by
  intro hm
  obtain ⟨table, ht, he⟩ := List.mem_map.mp hm
  have := h.below table ht
  omega

theorem Compacted.arranged {v v' : Version} {T T' : Contents} {t : Nat}
    {above inputs below : List TableMeta} {out : List Entry}
    (h : Compacted v T t v' T' above inputs below out) (ha : Arranged v T) : Arranged v' T' where
  describes := h.describes ha.describes ha.ordered
  ordered := h.ordered ha.describes ha.ordered
  below := by
    intro table ht
    rw [← Version.mem_tablesNewestFirst, h.after, List.mem_append, List.mem_append] at ht
    have hold : table ∈ v.allTables → table.id < v'.nextTableId := fun hm =>
      Nat.lt_of_lt_of_le (ha.below table hm) h.nextTableId
    rcases ht with ht | ht | ht
    · exact hold (h.mem.mpr (Or.inl ht))
    · exact h.output_lt table ht
    · exact hold (h.mem.mpr (Or.inr (Or.inr ht)))

theorem Compacted.get_eq {v v' : Version} {T T' : Contents} {t : Nat}
    {above inputs below : List TableMeta} {out : List Entry}
    (h : Compacted v T t v' T' above inputs below out) (ha : Arranged v T) (key : Bytes) :
    v'.get T' key = v.get T key := by
  rw [Version.get, Version.get, Version.find_eq (h.arranged ha).describes,
    Version.find_eq ha.describes, h.read ha.describes ha.ordered]

/-! ### One pass -/

theorem firstFull_eq_none {fanout : Nat} {v : Version} :
    firstFull fanout v = none ↔ v.Balanced fanout := by
  rw [Version.Balanced, firstFull, List.find?_eq_none]
  simp only [List.mem_range, decide_eq_true_eq, ge_iff_le, Nat.not_le]

theorem firstFull_eq_some {fanout t : Nat} {v : Version} (h : firstFull fanout v = some t) :
    t < v.numTiers ∧ fanout ≤ v.tierLen t ∧ ∀ i < t, v.tierLen i < fanout := by
  rw [firstFull, List.find?_range_eq_some] at h
  obtain ⟨hle, hlt, hmin⟩ := h
  refine ⟨List.mem_range.mp hlt, of_decide_eq_true hle, fun i hi => ?_⟩
  have := hmin i hi
  rw [Bool.not_eq_eq_eq_not, Bool.not_true, decide_eq_false_iff_not] at this
  omega

/-- A pass that has something to do makes a version. -/
theorem settle_pass {fanout t : Nat} {v : Version} {T : Contents} (ha : Arranged v T)
    (h : firstFull fanout v = some t) :
    ∃ v' T' above inputs below out, Compacted v T t v' T' above inputs below out ∧
      ∀ passes, settle fanout (passes + 1) v T = settle fanout passes v' T' := by
  have hc : compactTier v T t = some (v.merged t (outputMeta v.nextTableId (compactOutput v T t)),
      Function.update T v.nextTableId (compactOutput v T t)) :=
    if_pos ⟨(firstFull_eq_some h).1, ha.free⟩
  obtain ⟨above, inputs, below, out, hcomp⟩ := compactTier_eq_some hc
  refine ⟨_, _, above, inputs, below, out, hcomp, fun passes => ?_⟩
  rw [settle, h]
  dsimp only
  rw [hc, Option.bind_some]

theorem SettlesIn.of_balanced {fanout : Nat} {v : Version} (h : firstFull fanout v = none)
    (T : Contents) (passes : Nat) : SettlesIn fanout (passes + 1) v T := by
  rw [SettlesIn, settle, h]
  rfl

/-- Where the loop ends, no tier is full. -/
theorem balanced_of_settle {fanout : Nat} : ∀ {passes : Nat} {v : Version} {T : Contents},
    Arranged v T → ∀ {v' : Version} {T' : Contents}, settle fanout passes v T = some (v', T') →
      v'.Balanced fanout := by
  intro passes
  induction passes with
  | zero => exact fun _ _ _ h => nomatch h
  | succ passes ih =>
    intro v T ha v' T' h
    cases hf : firstFull fanout v with
    | none =>
      rw [settle, hf] at h
      obtain ⟨rfl, rfl⟩ := Prod.mk.inj (Option.some.inj h)
      exact firstFull_eq_none.mp hf
    | some t =>
      obtain ⟨w, U, above, inputs, below, out, hc, hpass⟩ := settle_pass ha hf
      rw [hpass] at h
      exact ih (hc.arranged ha) h

/-- What every pass keeps and no ending has keeps the loop running. -/
theorem not_settlesIn {fanout : Nat} (P : Version → Contents → Prop)
    (hpass : ∀ v T, P v T → ∃ v' T', P v' T' ∧
      ∀ passes, settle fanout (passes + 1) v T = settle fanout passes v' T') :
    ∀ (passes : Nat) {v : Version} {T : Contents}, P v T → ¬ SettlesIn fanout passes v T := by
  intro passes
  induction passes with
  | zero => exact fun _ h => Bool.false_ne_true h
  | succ passes ih =>
    intro v T h hs
    obtain ⟨v', T', hP, heq⟩ := hpass v T h
    rw [SettlesIn, heq] at hs
    exact ih hP hs

/-! ### A fanout of two or more -/

/-- **With a fanout of two or more the loop ends**: every pass leaves fewer tables. -/
theorem settles_of_two_le {fanout : Nat} (hf : 2 ≤ fanout) : ∀ (n : Nat) {v : Version}
    {T : Contents}, v.tablesNewestFirst.length < n → Arranged v T → SettlesIn fanout n v T := by
  intro n
  induction n with
  | zero => exact fun hn => absurd hn (Nat.not_lt_zero _)
  | succ n ih =>
    intro v T hn ha
    cases h : firstFull fanout v with
    | none => exact .of_balanced h T n
    | some t =>
      obtain ⟨v', T', above, inputs, below, out, hc, hpass⟩ := settle_pass ha h
      rw [SettlesIn, hpass]
      refine ih ?_ (hc.arranged ha)
      have hlen := hc.length_inputs
      have hle := (firstFull_eq_some h).2.1
      have hout : (outputMeta v.nextTableId out).toList.length ≤ 1 := by
        cases out with
        | nil => exact Nat.zero_le _
        | cons first rest => exact Nat.le_refl _
      rw [hc.before, List.length_append, List.length_append, List.length_reverse] at hn
      rw [hc.after, List.length_append, List.length_append]
      omega

/-! ### A fanout of one, and of none -/

/-- Where some key has a value there is a table. -/
theorem Arranged.exists_table {v : Version} {T : Contents} (hl : ¬ v.Lifeless T) :
    ∃ table, table ∈ v.allTables := by
  by_contra hno
  refine hl fun key => ?_
  have hnil : v.tablesNewestFirst = [] := by
    refine List.eq_nil_iff_forall_not_mem.mpr fun table ht => hno ⟨table, ?_⟩
    exact Version.mem_tablesNewestFirst.mp ht
  rw [Version.get, Version.find, hnil]
  rfl

theorem firstFull_one {v : Version} {table : TableMeta} (h : table ∈ v.allTables) :
    ∃ t, firstFull 1 v = some t := by
  cases hf : firstFull 1 v with
  | some t => exact ⟨t, rfl⟩
  | none =>
    obtain ⟨tier, htier, htable⟩ := List.mem_flatten.mp h
    obtain ⟨i, hi⟩ := List.mem_iff_getElem?.mp htier
    have hlt := firstFull_eq_none.mp hf i (List.getElem?_eq_some_iff.mp hi).1
    rw [Version.tierLen, hi] at hlt
    have := List.length_pos_of_mem htable
    rw [Option.map_some, Option.getD_some] at hlt
    omega

/-- **A fanout of one keeps the loop running as long as a key has a value.** -/
theorem not_settles_one {v : Version} {T : Contents} (ha : Arranged v T) (hl : ¬ v.Lifeless T)
    (passes : Nat) : ¬ SettlesIn 1 passes v T := by
  refine not_settlesIn (fun v T => Arranged v T ∧ ¬ v.Lifeless T) ?_ passes ⟨ha, hl⟩
  rintro v T ⟨ha, hl⟩
  obtain ⟨table, htable⟩ := Arranged.exists_table hl
  obtain ⟨t, hf⟩ := firstFull_one htable
  obtain ⟨v', T', above, inputs, below, out, hc, hpass⟩ := settle_pass ha hf
  refine ⟨v', T', ⟨hc.arranged ha, fun hl' => hl fun key => ?_⟩, hpass⟩
  rw [← hc.get_eq ha]
  exact hl' key

theorem tierLen_of_prefix {v : Version} {tiers : List (List TableMeta)} (h : v.tiers <+: tiers)
    (i : Nat) : v.tierLen i ≤ (tiers[i]?.map List.length).getD 0 := by
  obtain ⟨rest, rfl⟩ := h
  rw [Version.tierLen]
  by_cases hi : i < v.tiers.length
  · rw [List.getElem?_append_left hi]
  · rw [List.getElem?_eq_none (by omega)]
    exact Nat.zero_le _

/-- With nothing above and nothing below, a merge of dead keys is empty. -/
theorem Compacted.out_eq_nil {v v' : Version} {T T' : Contents} {t : Nat}
    {inputs : List TableMeta} {out : List Entry} (h : Compacted v T t v' T' [] inputs [] out)
    (ha : Arranged v T) (hl : v.Lifeless T) : out = [] := by
  cases out with
  | nil => rfl
  | cons first rest =>
    obtain ⟨_, hout⟩ := h.output_layer ha.describes ha.ordered
    have hlayers : v.layers T = tableLayers T inputs.reverse := by
      rw [h.layers]
      exact List.append_nil _
    have hfirst := hout first.1
    have hlife := hl first.1
    rw [Version.get, Version.find_eq ha.describes, hlayers] at hlife
    rw [layerOf_cons, if_pos rfl] at hfirst
    obtain ⟨hw, hkeep⟩ := Option.filter_eq_some_iff.mp hfirst.symm
    rw [hw, Option.bind_some] at hlife
    rw [InternalValue.isTombstone_eq, hlife] at hkeep
    cases hkeep

/-- The tables above a tier none of whose predecessors has any. -/
theorem flatMap_reverse_eq_nil {tiers : List (List TableMeta)} (h : ∀ tier ∈ tiers, tier = []) :
    tiers.flatMap List.reverse = [] :=
  List.flatMap_eq_nil_iff.mpr fun tier ht => by rw [h tier ht, List.reverse_nil]

/-- **With a fanout of one the loop ends when no key has a value**: the youngest table
goes down until it meets the bottom, where nothing is left of it. -/
theorem settles_one : ∀ (n : Nat) {v : Version} {T : Contents}, Arranged v T →
    v.Lifeless T → (∀ t, firstFull 1 v = some t → v.numTiers - t ≤ n) →
      SettlesIn 1 (n + 1) v T := by
  intro n
  induction n with
  | zero =>
    intro v T _ _ hn
    cases hf : firstFull 1 v with
    | none => exact .of_balanced hf T 0
    | some t =>
      have := hn t hf
      have := (firstFull_eq_some hf).1
      omega
  | succ n ih =>
    intro v T ha hl hn
    cases hf : firstFull 1 v with
    | none => exact .of_balanced hf T (n + 1)
    | some t =>
      have hnt := hn t hf
      obtain ⟨hlt, _, hmin⟩ := firstFull_eq_some hf
      obtain ⟨v', T', top, inputs, bot, out, hc, hpass⟩ := settle_pass ha hf
      rw [SettlesIn, hpass]
      refine ih (hc.arranged ha) (fun key => by rw [hc.get_eq ha, hl]) ?_
      intro t' hf'
      obtain ⟨hlt', hle', _⟩ := firstFull_eq_some hf'
      obtain ⟨above, below, htiers, rfl, htop, hbot, htiers'⟩ := hc.split
      have habove : ∀ tier ∈ above, tier = [] := by
        intro tier htier
        obtain ⟨i, hi⟩ := List.mem_iff_getElem?.mp htier
        have hia : i < above.length := (List.getElem?_eq_some_iff.mp hi).1
        have := hmin i hia
        rw [Version.tierLen, htiers, List.getElem?_append_left hia, hi] at this
        exact List.eq_nil_of_length_eq_zero (Nat.lt_one_iff.mp this)
      rw [flatMap_reverse_eq_nil habove] at htop
      subst htop
      have hpre : v'.tiers <+: above ++ [] :: (outputMeta v.nextTableId out).elim below
          fun table => (below.headD [] ++ [table]) :: below.tail := by
        rw [htiers']
        exact List.rdropWhile_prefix ..
      have hdeep : above.length < t' := by
        by_contra hno
        have hlen := tierLen_of_prefix hpre t'
        rcases Nat.lt_or_eq_of_le (Nat.le_of_not_lt hno) with hlt'' | rfl
        · rw [List.getElem?_append_left hlt'', List.getElem?_eq_getElem hlt'',
            habove _ (List.getElem_mem hlt'')] at hlen
          exact absurd (hle'.trans hlen) (by decide)
        · rw [List.getElem?_append_right (Nat.le_refl _), Nat.sub_self, List.getElem?_cons_zero] at hlen
          exact absurd (hle'.trans hlen) (Nat.not_succ_le_zero 0)
      have hcount : v'.numTiers ≤ v.numTiers := by
        have hlen := hpre.length_le
        rw [Version.numTiers, Version.numTiers, htiers]
        cases out with
        | nil => simpa [outputMeta] using hlen
        | cons first rest =>
          cases below with
          | nil =>
            subst hbot
            cases hc.out_eq_nil ha hl
          | cons tier below => simpa [outputMeta] using hlen
      omega

/-- With a fanout of zero the pass is always over tier 0. -/
theorem firstFull_zero {v : Version} (h : v.tiers ≠ []) : firstFull 0 v = some 0 := by
  have hpos : 0 < v.numTiers := List.length_pos_iff.mpr h
  rw [firstFull, List.find?_range_eq_some]
  exact ⟨rfl, List.mem_range.mpr hpos, fun j hj => absurd hj (Nat.not_lt_zero j)⟩

/-- The first tier and the others, of which none has a table. -/
theorem below_eq_nil {v : Version} {above below : List (List TableMeta)} {inputs : List TableMeta}
    (h : v.tiers = above ++ inputs :: below) (hz : above.length = 0)
    (hb : ∀ t, 0 < t → v.tierLen t = 0) : ∀ tier ∈ below, tier = [] := by
  obtain rfl := List.eq_nil_of_length_eq_zero hz
  intro tier htier
  obtain ⟨i, hi⟩ := List.mem_iff_getElem?.mp htier
  have := hb (i + 1) (Nat.succ_pos i)
  rw [Version.tierLen, h, List.nil_append, List.getElem?_cons_succ, hi] at this
  exact List.eq_nil_of_length_eq_zero this

/-- **With a fanout of zero the loop ends** when there is no tier, or when all tables are
in the first one and no key has a value. -/
theorem settles_zero {v : Version} {T : Contents} (ha : Arranged v T)
    (h : v.tiers = [] ∨ (∀ t, 0 < t → v.tierLen t = 0) ∧ v.Lifeless T) (n : Nat) :
    SettlesIn 0 (n + 2) v T := by
  by_cases hne : v.tiers = []
  · refine .of_balanced (firstFull_eq_none.mpr fun t ht => ?_) T _
    rw [Version.numTiers, hne] at ht
    exact absurd ht (Nat.not_lt_zero t)
  · obtain ⟨hb, hl⟩ := h.resolve_left hne
    obtain ⟨v', T', top, inputs, bot, out, hc, hpass⟩ := settle_pass ha (firstFull_zero hne)
    obtain ⟨above, below, htiers, hz, htop, hbot, htiers'⟩ := hc.split
    have hbelow := below_eq_nil htiers hz hb
    obtain rfl := List.eq_nil_of_length_eq_zero hz
    rw [flatMap_reverse_eq_nil hbelow] at hbot
    subst htop hbot
    obtain rfl := hc.out_eq_nil ha hl
    rw [SettlesIn, hpass]
    refine SettlesIn.of_balanced (firstFull_eq_none.mpr fun t ht => ?_) T' n
    have hnil : v'.tiers = [] := by
      rw [htiers']
      refine Version.trim_eq_nil fun tier htier => ?_
      rcases List.mem_cons.mp htier with rfl | htier
      · rfl
      · exact hbelow tier htier
    rw [Version.numTiers, hnil] at ht
    exact absurd ht (Nat.not_lt_zero t)

/-- A table below the first tier stays below it, and a key with a value keeps it: with a
fanout of zero either one keeps the loop running. -/
theorem not_settles_zero {v : Version} {T : Contents} (ha : Arranged v T) (hne : v.tiers ≠ [])
    (h : ¬ ((∀ t, 0 < t → v.tierLen t = 0) ∧ v.Lifeless T)) (passes : Nat) :
    ¬ SettlesIn 0 passes v T := by
  refine not_settlesIn (fun v T => Arranged v T ∧ v.tiers ≠ [] ∧
    ¬ ((∀ t, 0 < t → v.tierLen t = 0) ∧ v.Lifeless T)) ?_ passes ⟨ha, hne, h⟩
  rintro v T ⟨ha, hne, h⟩
  obtain ⟨v', T', top, inputs, bot, out, hc, hpass⟩ := settle_pass ha (firstFull_zero hne)
  obtain ⟨above, below, htiers, hz, htop, hbot, htiers'⟩ := hc.split
  obtain rfl := List.eq_nil_of_length_eq_zero hz
  have ha' := hc.arranged ha
  by_cases hl : v.Lifeless T
  · -- some tier below the first one has a table
    obtain ⟨tier, htier, hnil⟩ : ∃ tier ∈ below, tier ≠ [] := by
      by_contra hno
      refine h ⟨fun t ht => ?_, hl⟩
      obtain ⟨i, rfl⟩ : ∃ i, t = i + 1 := ⟨t - 1, by omega⟩
      rw [Version.tierLen, htiers, List.nil_append, List.getElem?_cons_succ]
      cases hi : below[i]? with
      | none => rfl
      | some tier =>
        have : tier = [] := by
          by_contra hne
          exact hno ⟨tier, List.mem_of_getElem? hi, hne⟩
        rw [this]
        rfl
    obtain ⟨i, hi⟩ := List.mem_iff_getElem?.mp htier
    -- it is still there, with the output or without
    obtain ⟨rest, hrest, tier', hi', hnil'⟩ : ∃ rest, v'.tiers = Version.trim ([] :: rest) ∧
        ∃ tier', rest[i]? = some tier' ∧ tier' ≠ [] := by
      refine ⟨_, htiers', ?_⟩
      cases outputMeta v.nextTableId out with
      | none => exact ⟨tier, hi, hnil⟩
      | some table =>
        cases below with
        | nil => cases hi
        | cons first below =>
          cases i with
          | zero => exact ⟨_, rfl, List.append_ne_nil_of_right_ne_nil _ (List.cons_ne_nil _ _)⟩
          | succ i => exact ⟨tier, hi, hnil⟩
    have hlt : i < rest.length := (List.getElem?_eq_some_iff.mp hi').1
    have hcut : v'.tiers = [] :: rest.take i ++ tier' :: Version.trim (rest.drop (i + 1)) := by
      rw [hrest, ← Version.trim_append_cons _ hnil', List.cons_append]
      have : tier' = rest[i] := Option.some.inj (hi'.symm.trans (List.getElem?_eq_getElem hlt))
      rw [this, List.getElem_cons_drop, List.take_append_drop]
    refine ⟨v', T', ⟨ha', by rw [hcut]; exact List.cons_ne_nil _ _, fun h' => ?_⟩, hpass⟩
    have := h'.1 (i + 1) (Nat.succ_pos i)
    rw [Version.tierLen, hcut, List.cons_append, List.getElem?_cons_succ,
      List.getElem?_append_right (List.length_take_le i rest), List.length_take_of_le hlt.le,
      Nat.sub_self] at this
    exact hnil' (List.eq_nil_of_length_eq_zero this)
  · have hl' : ¬ v'.Lifeless T' := fun hl' => hl fun key => by rw [← hc.get_eq ha, hl']
    obtain ⟨table, htable⟩ := Arranged.exists_table hl'
    refine ⟨v', T', ⟨ha', fun hnil => ?_, fun h' => hl' h'.2⟩, hpass⟩
    rw [Version.allTables, hnil] at htable
    cases htable

/-- What decides whether the passes end: the fanout is at least two, or it is one and no key
has a value, or it is zero and there is no tier, or no table outside the first tier and no key
with a value. -/
def Version.Ends (fanout : Nat) (v : Version) (T : Contents) : Prop :=
  2 ≤ fanout ∨ fanout = 1 ∧ v.Lifeless T ∨
    fanout = 0 ∧ (v.tiers = [] ∨ (∀ t, 0 < t → v.tierLen t = 0) ∧ v.Lifeless T)

theorem SettlesIn.ends {v : Version} {T : Contents} (ha : Arranged v T) {fanout passes : Nat}
    (hs : SettlesIn fanout passes v T) : v.Ends fanout T := by
  rcases Nat.lt_or_ge fanout 2 with hlt | hge
  · rcases Nat.lt_or_ge fanout 1 with hzero | hone
    · obtain rfl : fanout = 0 := by omega
      refine Or.inr (Or.inr ⟨rfl, ?_⟩)
      by_contra hno
      rw [not_or] at hno
      exact not_settles_zero ha hno.1 hno.2 passes hs
    · obtain rfl : fanout = 1 := by omega
      refine Or.inr (Or.inl ⟨rfl, ?_⟩)
      by_contra hno
      exact not_settles_one ha hno passes hs
  · exact Or.inl hge

/-- **When the passes end**, so many are enough as `passBound` says. -/
theorem Version.Ends.settlesIn {v : Version} {T : Contents} {fanout : Nat} (h : v.Ends fanout T)
    (ha : Arranged v T) : SettlesIn fanout v.passBound v T := by
  rcases h with h | ⟨rfl, h⟩ | ⟨rfl, h⟩
  · exact settles_of_two_le h _ (by rw [Version.passBound]; omega) ha
  · exact settles_one (v.tablesNewestFirst.length + v.numTiers + 1) ha h fun t _ => by omega
  · exact settles_zero ha h _

end AccretionDb
