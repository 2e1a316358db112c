import AccretionDb.Compaction.Table
import AccretionDb.Iter

/-! # Compacting a tier

What one compaction does to a version and to the contents of its tables.  A tier is
merged into one table of the next tier; when there is nothing below, the merge
leaves the tombstones out, and when nothing is left of it the tier is just cleared.
Seen as layers this merges adjacent ones (`Compacts`), so a compaction changes no
answer.
-/

namespace AccretionDb

open CrashLogic

/-- What the file of every table holds. -/
abbrev Contents := Nat → List Entry

/-- The metadata is that of these entries. -/
structure TableMeta.Describes (table : TableMeta) (es : List Entry) : Prop where
  ascending : Ascending es
  eq : ∃ first rest, es = first :: rest ∧ table = tableMeta table.id first rest

theorem TableMeta.Describes.keyInRange {table : TableMeta} {es : List Entry}
    (h : table.Describes es) {e : Entry} (he : e ∈ es) : table.keyInRange e.1 = true := by
  obtain ⟨first, rest, rfl, ht⟩ := h.eq
  rw [ht]
  exact keyInRange_of_mem h.ascending he

theorem TableMeta.describes_tableMeta (id : Nat) {first : Entry} {rest : List Entry}
    (h : Ascending (first :: rest)) : (tableMeta id first rest).Describes (first :: rest) :=
  ⟨h, first, rest, rfl, rfl⟩

/-! ### What a version says -/

namespace Version

/-- The tables as layers, newest first. -/
def layers (v : Version) (T : Contents) : List Versions :=
  v.tablesNewestFirst.map fun table => layerOf (T table.id)

/-- The walk of `Db::get` over the tables. -/
def find (v : Version) (T : Contents) (key : Bytes) : Option InternalValue :=
  v.tablesNewestFirst.findSome? fun table =>
    if table.keyInRange key then layerOf (T table.id) key else none

/-- What `Db::get` answers from the tables. -/
def get (v : Version) (T : Contents) (key : Bytes) : Option Bytes :=
  (v.find T key).bind InternalValue.asValue

/-- The sources that `Db::scan` has from the tables. -/
def scanSources (v : Version) (T : Contents) (range : KeyRange) : List (List Entry) :=
  v.allTables.map fun table => (T table.id).filter fun e => rangeContains range e.1

/-- What `Db::scan` yields from the tables. -/
def scan (v : Version) (T : Contents) (range : KeyRange) : List (Bytes × Bytes) :=
  (MergeIterator.new (v.scanSources T range)).live

/-- Every table is described by its metadata. -/
def Describes (v : Version) (T : Contents) : Prop :=
  ∀ table ∈ v.allTables, table.Describes (T table.id)

/-- The keys outside a table's range are not in it, so skipping it changes nothing. -/
theorem find_eq {v : Version} {T : Contents} (h : v.Describes T) (key : Bytes) :
    v.find T key = lookup (v.layers T) key := by
  have hall : ∀ table ∈ v.tablesNewestFirst, table.Describes (T table.id) :=
    fun table ht => h table (mem_tablesNewestFirst.mp ht)
  rw [find, layers]
  generalize v.tablesNewestFirst = tables at hall
  induction tables with
  | nil => rfl
  | cons table tables ih =>
    have hskip : (if table.keyInRange key then layerOf (T table.id) key else none) =
        layerOf (T table.id) key := by
      cases hk : layerOf (T table.id) key with
      | none => exact ite_self _
      | some v =>
        exact if_pos ((hall table List.mem_cons_self).keyInRange (mem_of_layerOf hk))
    rw [List.map_cons, lookup_cons, List.findSome?_cons, hskip,
      ← ih fun x hx => hall x (List.mem_cons_of_mem _ hx)]
    cases layerOf (T table.id) key <;> rfl

/-- The merge of some sources of the tables, seen as a layer. -/
theorem merged_layer {sources : List (List Entry)} {ls : List Versions} (hsort : Sorted sources)
    (ho : Ordered ls) (hls : ∀ l, l ∈ ls ↔ ∃ s ∈ sources, l = layerOf s) :
    Ascending (MergeIterator.new sources).toList ∧
      ∀ key, layerOf (MergeIterator.new sources).toList key = lookup ls key :=
  ⟨(Merged.toList hsort).ascending, (Merged.toList hsort).layerOf_eq hsort ho hls⟩

/-- The pairs of a list whose values are not tombstones. -/
theorem layerOf_live {es : List Entry} (h : Ascending es) :
    Ascending (es.filterMap fun e => e.2.asValue.map fun v => (e.1, v)) ∧
      ∀ key, layerOf (es.filterMap fun e => e.2.asValue.map fun v => (e.1, v)) key =
        (layerOf es key).bind InternalValue.asValue := by
  induction es with
  | nil => exact ⟨.nil, fun _ => rfl⟩
  | cons e es ih =>
    obtain ⟨hlt, hes⟩ := h.cons
    obtain ⟨hasc, hlayer⟩ := ih hes
    rw [List.filterMap_cons]
    cases hv : e.2.asValue with
    | none =>
      refine ⟨hasc, fun key => ?_⟩
      show layerOf (es.filterMap _) key = _
      rw [hlayer, layerOf_cons]
      by_cases hk : e.1 = key
      · rw [if_pos hk, layerOf_eq_none.mpr fun x hx => hk ▸ (hlt x hx).ne', Option.bind_some, hv]
        rfl
      · rw [if_neg hk]
    | some v =>
      refine ⟨List.pairwise_cons.mpr ⟨fun x hx => ?_, hasc⟩, fun key => ?_⟩
      · obtain ⟨y, hy, hyx⟩ := List.mem_filterMap.mp hx
        obtain ⟨w, _, rfl⟩ := Option.map_eq_some_iff.mp hyx
        exact hlt y hy
      · show layerOf ((e.1, v) :: es.filterMap _) key = _
        rw [layerOf_cons, hlayer, layerOf_cons]
        by_cases hk : e.1 = key
        · rw [if_pos hk, if_pos hk, Option.bind_some, hv]
        · rw [if_neg hk, if_neg hk]

/-- What a scan of some sources yields, each cut to the range: in order, every key of the
range that has a value. -/
theorem live_layers {sources : List (List Entry)} {ls : List Versions} (hsort : Sorted sources)
    (ho : Ordered ls) (range : KeyRange) (hls : ∀ l, l ∈ ls.map (restrict (rangeContains range)) ↔
      ∃ s ∈ sources, l = layerOf s) : Ascending (MergeIterator.new sources).live ∧
    ∀ key, layerOf (MergeIterator.new sources).live key =
      (restrict (rangeContains range) (lookup ls) key).bind InternalValue.asValue := by
  obtain ⟨hasc, hlayer⟩ := merged_layer hsort (ho.restrict (rangeContains range)) hls
  obtain ⟨hasc', hlive⟩ := layerOf_live hasc
  refine ⟨hasc', fun key => ?_⟩
  rw [MergeIterator.live, hlive, hlayer, lookup_restrict]

/-- The sources of a scan are the layers of the tables, cut to the range. -/
theorem mem_scan_layers {v : Version} {T : Contents} {range : KeyRange} {l : Versions} :
    l ∈ (v.layers T).map (restrict (rangeContains range)) ↔
      ∃ s ∈ v.scanSources T range, l = layerOf s := by
  simp only [layers, scanSources, List.map_map, List.mem_map, mem_tablesNewestFirst,
    Function.comp_apply]
  constructor
  · rintro ⟨table, ht, rfl⟩
    exact ⟨_, ⟨table, ht, rfl⟩, (layerOf_filter_key _ _).symm⟩
  · rintro ⟨_, ⟨table, ht, rfl⟩, rfl⟩
    exact ⟨table, ht, (layerOf_filter_key _ _).symm⟩

/-- **What a scan yields**: in order, every key of the range that has a value. -/
theorem scan_spec {v : Version} {T : Contents} (h : v.Describes T) (ho : Ordered (v.layers T))
    (range : KeyRange) : Ascending (v.scan T range) ∧ ∀ key, layerOf (v.scan T range) key =
      (restrict (rangeContains range) (lookup (v.layers T)) key).bind InternalValue.asValue := by
  have hsort : Sorted (v.scanSources T range) := by
    intro s hs
    obtain ⟨table, ht, rfl⟩ := List.mem_map.mp hs
    exact (h table ht).ascending.filter _
  exact live_layers hsort ho range fun _ => mem_scan_layers

end Version

/-! ### One compaction -/

/-- `output_is_bottom`: nothing lies below tier `t`. -/
def outputIsBottom (v : Version) (t : Nat) : Bool :=
  (List.range' (t + 1) (v.numTiers - (t + 1))).all fun i => v.tierLen i == 0

/-- The stream that a compaction writes: the merge of its inputs, without the
tombstones if they are to go. -/
def compactEntries (dropTombstones : Bool) (sources : List (List Entry)) : List Entry :=
  (MergeIterator.new sources).toList.filter fun e => !(dropTombstones && e.2.isTombstone)

/-- The version to install, for a merge with and without an output table. -/
def Version.merged (v : Version) (t : Nat) : Option TableMeta → Version
  | some table => v.compacted t table
  | none => v.cleared t

/-- The inputs of the compaction of tier `t`, in the order of the tier. -/
def tierSources (v : Version) (T : Contents) (t : Nat) : List (List Entry) :=
  ((v.tiers[t]?).getD []).map fun table => T table.id

/-- What the compaction of tier `t` writes. -/
def compactOutput (v : Version) (T : Contents) (t : Nat) : List Entry :=
  compactEntries (outputIsBottom v t) (tierSources v T t)

/-- What `write_table` answers. -/
def outputMeta (id : Nat) : List Entry → Option TableMeta
  | [] => none
  | first :: rest => some (tableMeta id first rest)

/-- What `compact_tier` makes of a version and of the contents of its tables.  There
is no tier `t`, or a table has the id of the output: then it panics or fails. -/
def compactTier (v : Version) (T : Contents) (t : Nat) : Option (Version × Contents) :=
  if t < v.tiers.length ∧ v.nextTableId ∉ v.referencedIds then
    some (v.merged t (outputMeta v.nextTableId (compactOutput v T t)),
      Function.update T v.nextTableId (compactOutput v T t))
  else none

theorem outputIsBottom_iff {v : Version} {above below : List (List TableMeta)}
    {inputs : List TableMeta} (h : v.tiers = above ++ inputs :: below) :
    outputIsBottom v above.length = true ↔ ∀ tier ∈ below, tier = [] := by
  have hlen : v.numTiers - (above.length + 1) = below.length := by
    rw [Version.numTiers, h, List.length_append, List.length_cons]
    omega
  have hget : ∀ i, v.tierLen (above.length + 1 + i) = (below[i]?.map List.length).getD 0 := by
    intro i
    rw [Version.tierLen, h, List.getElem?_append_right (by omega)]
    have hi : above.length + 1 + i - above.length = i + 1 := by omega
    rw [hi, List.getElem?_cons_succ]
  unfold outputIsBottom
  rw [hlen, List.all_eq_true]
  simp only [List.mem_range', beq_iff_eq, Nat.one_mul]
  constructor
  · intro hall tier htier
    obtain ⟨i, hi⟩ := List.mem_iff_getElem?.mp htier
    have hlt : i < below.length := (List.getElem?_eq_some_iff.mp hi).1
    have := hall (above.length + 1 + i) ⟨i, hlt, rfl⟩
    rw [hget, hi] at this
    exact List.eq_nil_of_length_eq_zero this
  · rintro hall _ ⟨i, hi, rfl⟩
    rw [hget, List.getElem?_eq_getElem hi, Option.map_some, Option.getD_some,
      hall _ (List.getElem_mem hi)]
    rfl

/-- What is written is what the merge yields, less the tombstones at the bottom. -/
theorem layerOf_compactEntries {sources : List (List Entry)} {ls : List Versions}
    (hsort : Sorted sources) (ho : Ordered ls)
    (hls : ∀ l, l ∈ ls ↔ ∃ s ∈ sources, l = layerOf s) (dropTombstones : Bool) :
    Ascending (compactEntries dropTombstones sources) ∧
      ∀ key, layerOf (compactEntries dropTombstones sources) key =
        (lookup ls key).filter fun v => !(dropTombstones && v.isTombstone) := by
  obtain ⟨hasc, hlayer⟩ := Version.merged_layer hsort ho hls
  refine ⟨hasc.filter _, fun key => ?_⟩
  rw [compactEntries, hasc.layerOf_filter fun v => !(dropTombstones && v.isTombstone), hlayer]

/-- The layers of some tables. -/
def tableLayers (T : Contents) (tables : List TableMeta) : List Versions :=
  tables.map fun table => layerOf (T table.id)

theorem tableLayers_append (T : Contents) (a b : List TableMeta) :
    tableLayers T (a ++ b) = tableLayers T a ++ tableLayers T b := List.map_append

theorem tableLayers_update {T : Contents} {id : Nat} {tables : List TableMeta}
    (h : ∀ table ∈ tables, table.id ≠ id) (es : List Entry) :
    tableLayers (Function.update T id es) tables = tableLayers T tables :=
  List.map_congr_left fun table ht => by rw [Function.update_of_ne (h table ht)]

/-- The tiers after a pass: the one that was merged is empty, and the output is in the
next. -/
theorem merged_tiers {v : Version} {above below : List (List TableMeta)} {inputs : List TableMeta}
    (h : v.tiers = above ++ inputs :: below) (output : Option TableMeta) :
    (v.merged above.length output).tiers = Version.trim (above ++ [] ::
      output.elim below fun table => (below.headD [] ++ [table]) :: below.tail) := by
  cases output with
  | none =>
    show Version.trim (v.tiers.set above.length []) = _
    rw [h, List.set_append_right _ _ (Nat.le_refl _), Nat.sub_self, List.set_cons_zero]
    rfl
  | some table => exact Version.compacted_tiers h table

/-- A compaction that went through, taken apart: the tables above the tier, the tier,
the tables below, and what was written. -/
structure Compacted (v : Version) (T : Contents) (t : Nat) (v' : Version) (T' : Contents)
    (above inputs below : List TableMeta) (out : List Entry) : Prop where
  split : ∃ aboveTiers belowTiers, v.tiers = aboveTiers ++ inputs :: belowTiers ∧
    aboveTiers.length = t ∧ above = aboveTiers.flatMap List.reverse ∧
    below = belowTiers.flatMap List.reverse ∧
    v'.tiers = Version.trim (aboveTiers ++ [] :: (outputMeta v.nextTableId out).elim belowTiers
      fun table => (belowTiers.headD [] ++ [table]) :: belowTiers.tail)
  tier : v.tiers[t]? = some inputs
  before : v.tablesNewestFirst = above ++ inputs.reverse ++ below
  after : v'.tablesNewestFirst = above ++ ((outputMeta v.nextTableId out).toList ++ below)
  contents : T' = Function.update T v.nextTableId out
  fresh : ∀ table ∈ v.allTables, table.id ≠ v.nextTableId
  written : out = compactOutput v T t
  bottom : outputIsBottom v t = decide (below = [])
  nextTableId : v.nextTableId ≤ v'.nextTableId
  output_lt : ∀ table ∈ (outputMeta v.nextTableId out).toList, table.id < v'.nextTableId
  nextSeq : v'.nextSeq = v.nextSeq

theorem compactTier_eq_some {v v' : Version} {T T' : Contents} {t : Nat}
    (h : compactTier v T t = some (v', T')) :
    ∃ above inputs below out, Compacted v T t v' T' above inputs below out := by
  unfold compactTier at h
  split at h
  swap
  · cases h
  rename_i hc
  obtain ⟨ht, hfree⟩ := hc
  obtain ⟨rfl, rfl⟩ := Prod.mk.inj (Option.some.inj h)
  obtain ⟨above, inputs, below, htiers, rfl, hget⟩ := v.exists_split ht
  have hbelow : outputIsBottom v above.length = decide (below.flatMap List.reverse = []) := by
    rw [Bool.eq_iff_iff, outputIsBottom_iff htiers, decide_eq_true_iff, List.flatMap_eq_nil_iff]
    simp only [List.reverse_eq_nil_iff]
  refine ⟨above.flatMap List.reverse, inputs, below.flatMap List.reverse,
    compactOutput v T above.length, ⟨above, below, htiers, rfl, rfl, rfl, merged_tiers htiers _⟩,
    hget, v.newestFirst_split htiers, ?_, rfl, ?_, rfl, hbelow, ?_, ?_, ?_⟩
  · cases compactOutput v T above.length with
    | nil => exact v.cleared_newestFirst htiers
    | cons first rest => exact v.compacted_newestFirst htiers _
  · exact fun table htable e => hfree (e ▸ List.mem_map_of_mem htable)
  · cases compactOutput v T above.length with
    | nil => exact Nat.le_refl _
    | cons first rest => exact Nat.le_max_left _ _
  · intro table htable
    cases hout : compactOutput v T above.length with
    | nil =>
      rw [hout] at htable
      cases htable
    | cons first rest =>
      rw [hout] at htable
      obtain rfl := List.mem_singleton.mp htable
      exact Nat.lt_of_lt_of_le (Nat.lt_succ_self _) (Nat.le_max_right _ _)
  · cases compactOutput v T above.length <;> rfl

namespace Compacted

variable {v v' : Version} {T T' : Contents} {t : Nat} {above inputs below : List TableMeta}
variable {out : List Entry}

theorem mem (h : Compacted v T t v' T' above inputs below out) {table : TableMeta} :
    table ∈ v.allTables ↔ table ∈ above ∨ table ∈ inputs ∨ table ∈ below := by
  rw [← Version.mem_tablesNewestFirst, h.before, List.mem_append, List.mem_append, List.mem_reverse,
    or_assoc]

theorem length_inputs (h : Compacted v T t v' T' above inputs below out) :
    inputs.length = v.tierLen t := by
  rw [Version.tierLen, h.tier]
  rfl

theorem layers (h : Compacted v T t v' T' above inputs below out) :
    v.layers T = tableLayers T above ++ tableLayers T inputs.reverse ++ tableLayers T below := by
  rw [Version.layers, ← tableLayers, h.before, tableLayers_append, tableLayers_append]

theorem sources (h : Compacted v T t v' T' above inputs below out) :
    tierSources v T t = inputs.map fun table => T table.id := by
  rw [tierSources, h.tier]
  rfl

/-- The inputs are layers in order. -/
theorem sources_layers (h : Compacted v T t v' T' above inputs below out) (hd : v.Describes T)
    (ho : Ordered (v.layers T)) : Sorted (tierSources v T t) ∧
      Ordered (tableLayers T inputs.reverse) ∧ ∀ l, l ∈ tableLayers T inputs.reverse ↔
        ∃ s ∈ tierSources v T t, l = layerOf s := by
  rw [h.sources]
  refine ⟨fun s hs => ?_, ?_, fun l => ?_⟩
  · obtain ⟨table, ht, rfl⟩ := List.mem_map.mp hs
    exact (hd table (h.mem.mpr (Or.inr (Or.inl ht)))).ascending
  · rw [h.layers] at ho
    exact (List.pairwise_append.mp (List.pairwise_append.mp ho).1).2.1
  · simp only [tableLayers, List.mem_map, List.mem_reverse]
    constructor
    · rintro ⟨table, ht, rfl⟩
      exact ⟨_, ⟨table, ht, rfl⟩, rfl⟩
    · rintro ⟨_, ⟨table, ht, rfl⟩, rfl⟩
      exact ⟨table, ht, rfl⟩

/-- What is written is the merge of the tier, less the tombstones at the bottom. -/
theorem output_layer (h : Compacted v T t v' T' above inputs below out) (hd : v.Describes T)
    (ho : Ordered (v.layers T)) : Ascending out ∧
      ∀ key, layerOf out key = (lookup (tableLayers T inputs.reverse) key).filter
        fun w => !(decide (below = []) && w.isTombstone) := by
  obtain ⟨hsort, hmid, hls⟩ := h.sources_layers hd ho
  rw [h.written, compactOutput, h.bottom]
  exact layerOf_compactEntries hsort hmid hls _

theorem layers_after (h : Compacted v T t v' T' above inputs below out) : v'.layers T' =
    tableLayers T above ++ ((outputMeta v.nextTableId out).toList.map fun _ => layerOf out) ++
      tableLayers T below := by
  have hne : ∀ tables : List TableMeta, (∀ table ∈ tables, table ∈ v.allTables) →
      tableLayers T' tables = tableLayers T tables := fun tables hsub => by
    rw [h.contents]
    exact tableLayers_update (fun table ht => h.fresh table (hsub table ht)) _
  rw [Version.layers, ← tableLayers, h.after, tableLayers_append, tableLayers_append,
    hne above fun table ht => h.mem.mpr (Or.inl ht),
    hne below fun table ht => h.mem.mpr (Or.inr (Or.inr ht)), List.append_assoc, h.contents]
  cases out with
  | nil => rfl
  | cons first rest =>
    show _ ++ (layerOf (Function.update T v.nextTableId _ v.nextTableId) :: _) = _
    rw [Function.update_self]
    rfl

/-- **A compaction merges adjacent layers**, or has nothing to merge. -/
theorem compacts (h : Compacted v T t v' T' above inputs below out) (hd : v.Describes T)
    (ho : Ordered (v.layers T)) :
    Compacts (v.layers T) (v'.layers T') ∨ v'.layers T' = v.layers T := by
  obtain ⟨_, hout⟩ := h.output_layer hd ho
  rw [h.layers_after, h.layers]
  by_cases hb : below = []
  · -- at the bottom the tombstones go
    rw [decide_eq_true hb] at hout
    rw [hb]
    show Compacts (_ ++ []) (_ ++ []) ∨ _
    rw [List.append_nil, List.append_nil]
    have hkeep : ∀ w : InternalValue, (!(true && w.isTombstone)) = (Stamped.payload w).isSome := by
      intro w
      rw [Bool.true_and, InternalValue.isTombstone_eq, Option.not_isNone]
      rfl
    simp only [hkeep] at hout
    cases out with
    | nil =>
      refine Or.inl ?_
      show Compacts _ (_ ++ [])
      rw [List.append_nil]
      refine .clear fun key w hw => ?_
      have := hout key
      rw [hw, layerOf_nil, Option.filter_some] at this
      split at this
      · cases this
      · rename_i hn
        exact Option.not_isSome_iff_eq_none.mp hn
    | cons first rest => exact Or.inl (.drop hout)
  · rw [decide_eq_false hb] at hout
    have hall : ∀ key, layerOf out key = lookup (tableLayers T inputs.reverse) key := by
      intro key
      rw [hout]
      cases lookup (tableLayers T inputs.reverse) key <;> rfl
    cases out with
    | nil =>
      -- every table has an entry, so there were no tables
      refine Or.inr ?_
      have hnil : inputs = [] := by
        refine List.eq_nil_iff_forall_not_mem.mpr fun table ht => ?_
        have hdesc := hd table (h.mem.mpr (Or.inr (Or.inl ht)))
        obtain ⟨first, rest, hes, _⟩ := hdesc.eq
        have hkey := lookup_eq_none.mp (hall first.1).symm (layerOf (T table.id))
          (List.mem_map_of_mem (List.mem_reverse.mpr ht))
        rw [hes, layerOf_cons, if_pos rfl] at hkey
        cases hkey
      rw [hnil]
      rfl
    | cons first rest =>
      refine Or.inl ?_
      have hk := @Compacts.keep _ _ _ _ (tableLayers T above) _ (tableLayers T below) _ hall
      rw [← List.singleton_append, ← List.append_assoc] at hk
      exact hk

theorem ordered (h : Compacted v T t v' T' above inputs below out) (hd : v.Describes T)
    (ho : Ordered (v.layers T)) : Ordered (v'.layers T') := by
  rcases h.compacts hd ho with hc | he
  · exact hc.ordered ho
  · rw [he]
    exact ho

theorem describes (h : Compacted v T t v' T' above inputs below out) (hd : v.Describes T)
    (ho : Ordered (v.layers T)) : v'.Describes T' := by
  intro table ht
  rw [← Version.mem_tablesNewestFirst, h.after, List.mem_append, List.mem_append] at ht
  have hold : table ∈ v.allTables → table.Describes (T' table.id) := fun hm => by
    rw [h.contents, Function.update_of_ne (h.fresh table hm)]
    exact hd table hm
  rcases ht with ht | ht | ht
  · exact hold (h.mem.mpr (Or.inl ht))
  · have hasc := (h.output_layer hd ho).1
    rw [h.contents]
    cases out with
    | nil => cases ht
    | cons first rest =>
      obtain rfl := List.mem_singleton.mp ht
      show TableMeta.Describes _ (Function.update T v.nextTableId _ v.nextTableId)
      rw [Function.update_self]
      exact TableMeta.describes_tableMeta _ hasc
  · exact hold (h.mem.mpr (Or.inr (Or.inr ht)))

/-- The values that can be read are those that could be read before. -/
theorem read (h : Compacted v T t v' T' above inputs below out) (hd : v.Describes T)
    (ho : Ordered (v.layers T)) (key : Bytes) : (lookup (v'.layers T') key).bind
      InternalValue.asValue = (lookup (v.layers T) key).bind InternalValue.asValue := by
  rcases h.compacts hd ho with hc | he
  · rcases hc.lookup_eq key with he | ⟨hn, w, hw, hp⟩
    · rw [he]
    · rw [hn, hw]
      exact hp.symm
  · rw [he]

/-- **A tombstone is left out only where nothing older is left.** -/
theorem dropped (h : Compacted v T t v' T' above inputs below out) (hd : v.Describes T)
    (ho : Ordered (v.layers T)) {key : Bytes} {w : InternalValue}
    (hw : lookup (tableLayers T inputs.reverse) key = some w) (hno : layerOf out key = none) :
    w.isTombstone = true ∧ ∀ table ∈ v'.allTables, ∀ u, layerOf (T' table.id) key = some u →
      w.seq ≤ u.seq := by
  have hout := (h.output_layer hd ho).2 key
  rw [hno, hw, Option.filter_some] at hout
  have hdrop : (decide (below = []) && w.isTombstone) = true := by
    by_contra hn
    rw [Bool.not_eq_true] at hn
    rw [hn] at hout
    cases hout
  obtain ⟨hb, htomb⟩ := Bool.and_eq_true_iff.mp hdrop
  have hb : below = [] := of_decide_eq_true hb
  refine ⟨htomb, fun table ht u hu => ?_⟩
  have hmem : layerOf (T' table.id) ∈ v'.layers T' :=
    List.mem_map_of_mem (Version.mem_tablesNewestFirst.mpr ht)
  rw [h.layers_after, hb] at hmem
  rcases List.mem_append.mp hmem with hmem | hmem
  · rcases List.mem_append.mp hmem with hmem | hmem
    · -- a table above the tier
      obtain ⟨l, hl, hlw⟩ := exists_of_lookup hw
      rw [h.layers] at ho
      have := (List.pairwise_append.mp (List.pairwise_append.mp ho).1).2.2 _ hmem l hl key u w hu hlw
      exact this.stamp_le
    · obtain ⟨_, _, he⟩ := List.mem_map.mp hmem
      rw [← he, hno] at hu
      cases hu
  · cases hmem

end Compacted

/-- **A compaction keeps the contents.**  If the tables are those of the version and
the versions of every key get older from table to table, every compaction that goes
through leaves every `get` and every `scan` as they were, the order of the versions
too, and drops a tombstone only where no table has anything older. -/
theorem compactTier_preserves {v v' : Version} {T T' : Contents} {t : Nat} (hd : v.Describes T)
    (ho : Ordered (v.layers T)) (h : compactTier v T t = some (v', T')) :
    (∀ key, v'.get T' key = v.get T key) ∧
      (∀ range, v'.scan T' range = v.scan T range) ∧
      v'.Describes T' ∧ Ordered (v'.layers T') ∧
      ∀ e ∈ (MergeIterator.new (tierSources v T t)).toList, e ∉ compactOutput v T t →
        e.2.isTombstone = true ∧ ∀ table ∈ v'.allTables, ∀ w, (e.1, w) ∈ T' table.id →
          e.2.seq ≤ w.seq := by
  obtain ⟨above, inputs, below, out, hc⟩ := compactTier_eq_some h
  have hd' := hc.describes hd ho
  have ho' := hc.ordered hd ho
  refine ⟨fun key => ?_, fun range => ?_, hd', ho', fun e he hno => ?_⟩
  · rw [Version.get, Version.get, Version.find_eq hd', Version.find_eq hd, hc.read hd ho]
  · obtain ⟨hasc, hlayer⟩ := Version.scan_spec hd ho range
    obtain ⟨hasc', hlayer'⟩ := Version.scan_spec hd' ho' range
    refine hasc'.ext hasc fun key => ?_
    rw [hlayer, hlayer', restrict, restrict]
    split
    · exact hc.read hd ho key
    · rfl
  · obtain ⟨hsort, hmid, hls⟩ := hc.sources_layers hd ho
    obtain ⟨hasc, hlayer⟩ := Version.merged_layer hsort hmid hls
    have hw : lookup (tableLayers T inputs.reverse) e.1 = some e.2 :=
      (hlayer e.1).symm.trans (hasc.layerOf_eq_some.mpr he)
    have hnone : layerOf out e.1 = none := by
      refine layerOf_eq_none.mpr fun x hx hk => hno ?_
      rw [hc.written] at hx
      have hxe : x.2 = e.2 := hasc.eq_of_mem (hk ▸ (List.mem_filter.mp hx).1) he
      rwa [← Prod.ext hk hxe]
    obtain ⟨htomb, hle⟩ := hc.dropped hd ho hw hnone
    refine ⟨htomb, fun table ht w hmem => hle table ht w ?_⟩
    exact (hd' table ht).ascending.layerOf_eq_some.mpr hmem

/-- A put, and in a younger table the tombstone over it: at the bottom both go. -/
theorem compactTier_preserves_demo :
    let v : Version := ⟨[[⟨1, 1, [7], [7]⟩, ⟨2, 1, [7], [7]⟩]], 3, 3⟩
    let T : Contents := fun id =>
      if id = 1 then [([7], ⟨1, .value [5]⟩)] else [([7], ⟨2, .tombstone⟩)]
    ∃ v' T', compactTier v T 0 = some (v', T') ∧ v'.tiers = [] ∧
      (∀ key, v'.get T' key = v.get T key) ∧ ∀ range, v'.scan T' range = v.scan T range := by
  intro v T
  have hd : v.Describes T := by
    intro table ht
    simp only [v, Version.allTables, List.flatten_cons, List.flatten_nil, List.append_nil,
      List.mem_cons, List.not_mem_nil, or_false] at ht
    rcases ht with rfl | rfl
    · exact ⟨List.pairwise_singleton .., _, _, rfl, rfl⟩
    · exact ⟨List.pairwise_singleton .., _, _, rfl, rfl⟩
  have ho : Ordered (v.layers T) := by
    refine List.pairwise_pair.mpr fun key w u hw hu => ?_
    obtain ⟨_, rfl⟩ := Prod.mk.inj (List.mem_singleton.mp (mem_of_layerOf hw))
    obtain ⟨_, rfl⟩ := Prod.mk.inj (List.mem_singleton.mp (mem_of_layerOf hu))
    exact Or.inl (by decide)
  have h : compactTier v T 0 = some (v.merged 0 (outputMeta 3 (compactOutput v T 0)),
      Function.update T 3 (compactOutput v T 0)) := if_pos (by decide)
  obtain ⟨hget, hscan, _⟩ := compactTier_preserves hd ho h
  exact ⟨_, _, h, by decide +kernel, hget, hscan⟩

end AccretionDb
