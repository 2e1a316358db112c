import AccretionDb.Compaction.Cascade

/-! # The layout of the tiers

A table that is added gets an id above all others and goes to the end of its tier.  So in
every tier the ids ascend, no id is given twice, and a table from the memory becomes the
topmost layer.
-/

namespace AccretionDb

open CrashLogic

/-! ### The version with one more table -/

theorem Version.mem_flushed (v : Version) (table : TableMeta) (nextSeq : Nat) {t : TableMeta} :
    t ∈ (v.flushed table nextSeq).allTables ↔ t = table ∨ t ∈ v.allTables := by
  rw [← Version.mem_tablesNewestFirst, Version.flushed_newestFirst, List.mem_cons,
    Version.mem_tablesNewestFirst]

section Flushed

variable {v : Version} {T : Contents} {first : Entry} {rest : List Entry}

theorem Version.nextTableId_flushed (v : Version) (first : Entry) (rest : List Entry)
    (nextSeq : Nat) :
    (v.flushed (tableMeta v.nextTableId first rest) nextSeq).nextTableId = v.nextTableId + 1 :=
  Nat.max_eq_right (Nat.le_succ _)

theorem Version.layers_flushed (hbelow : ∀ table ∈ v.allTables, table.id < v.nextTableId)
    (nextSeq : Nat) : (v.flushed (tableMeta v.nextTableId first rest) nextSeq).layers
      (Function.update T v.nextTableId (first :: rest)) = layerOf (first :: rest) :: v.layers T := by
  have hrest : tableLayers (Function.update T v.nextTableId (first :: rest)) v.tablesNewestFirst =
      tableLayers T v.tablesNewestFirst :=
    tableLayers_update (fun table ht => Nat.ne_of_lt
      (hbelow table (Version.mem_tablesNewestFirst.mp ht))) _
  rw [Version.layers, Version.flushed_newestFirst, List.map_cons]
  exact congrArg₂ List.cons (congrArg layerOf (Function.update_self ..)) hrest

theorem Arranged.flushed (ha : Arranged v T) (hes : Ascending (first :: rest)) (nextSeq : Nat)
    (ho : Ordered (layerOf (first :: rest) :: v.layers T)) :
    Arranged (v.flushed (tableMeta v.nextTableId first rest) nextSeq)
      (Function.update T v.nextTableId (first :: rest)) where
  describes table ht := by
    rcases (v.mem_flushed ..).mp ht with rfl | ht
    · have hself : Function.update T v.nextTableId (first :: rest)
          (tableMeta v.nextTableId first rest).id = first :: rest := Function.update_self ..
      rw [hself]
      exact TableMeta.describes_tableMeta _ hes
    · rw [Function.update_of_ne (Nat.ne_of_lt (ha.below table ht))]
      exact ha.describes table ht
  below table ht := by
    rw [Version.nextTableId_flushed]
    rcases (v.mem_flushed ..).mp ht with rfl | ht
    · exact Nat.lt_succ_self _
    · exact Nat.lt_succ_of_lt (ha.below table ht)
  ordered := by
    rw [Version.layers_flushed ha.below]
    exact ho

end Flushed

/-! ### Ids -/

/-- In a tier ids ascend, and no two tables have one id. -/
structure Version.LaidOut (v : Version) : Prop where
  ascending : ∀ tier ∈ v.tiers, (tier.map TableMeta.id).Pairwise (· < ·)
  distinct : (v.tablesNewestFirst.map TableMeta.id).Nodup

/-- No two tables have one id, in whatever order they are walked. -/
theorem Version.LaidOut.nodup {v : Version} (h : v.LaidOut) : v.referencedIds.Nodup := by
  have hperm : v.tablesNewestFirst.Perm v.allTables := by
    rw [Version.tablesNewestFirst, Version.allTables, List.flatMap_def]
    induction v.tiers with
    | nil => exact .nil
    | cons tier tiers ih =>
      rw [List.map_cons, List.flatten_cons, List.flatten_cons]
      exact (List.reverse_perm tier).append ih
  exact (hperm.map TableMeta.id).nodup_iff.mp h.distinct

theorem Version.laidOut_empty : Version.empty.LaidOut where
  ascending := nofun
  distinct := List.nodup_nil

/-- A table goes to the end of a tier. -/
theorem ascending_concat {tier : List TableMeta} {table : TableMeta}
    (h : (tier.map TableMeta.id).Pairwise (· < ·)) (hlt : ∀ t ∈ tier, t.id < table.id) :
    ((tier ++ [table]).map TableMeta.id).Pairwise (· < ·) := by
  rw [List.map_append, List.pairwise_append]
  refine ⟨h, List.pairwise_singleton _ _, fun a ha b hb => ?_⟩
  obtain ⟨t, ht, rfl⟩ := List.mem_map.mp ha
  obtain rfl := List.mem_singleton.mp hb
  exact hlt t ht

theorem Version.LaidOut.flushed {v : Version} (h : v.LaidOut)
    (hbelow : ∀ table ∈ v.allTables, table.id < v.nextTableId) {table : TableMeta}
    (hid : table.id = v.nextTableId) (nextSeq : Nat) : (v.flushed table nextSeq).LaidOut where
  ascending tier ht := by
    have hnew : ∀ t : List TableMeta, t ∈ v.tiers → ∀ x ∈ t, x.id < table.id := fun t ht x hx => by
      rw [hid]
      exact hbelow x (List.mem_flatten.mpr ⟨t, ht, hx⟩)
    rw [Version.flushed] at ht
    dsimp only at ht
    cases htiers : v.tiers with
    | nil =>
      rw [htiers] at ht
      obtain rfl := List.mem_singleton.mp ht
      exact List.pairwise_singleton _ _
    | cons first rest =>
      rw [htiers] at ht hnew
      rcases List.mem_cons.mp ht with rfl | ht
      · exact ascending_concat (h.ascending first (htiers ▸ List.mem_cons_self))
          (hnew first List.mem_cons_self)
      · exact h.ascending tier (htiers ▸ List.mem_cons_of_mem first ht)
  distinct := by
    rw [Version.flushed_newestFirst, List.map_cons, List.nodup_cons]
    refine ⟨fun hmem => ?_, h.distinct⟩
    obtain ⟨t, ht, he⟩ := List.mem_map.mp hmem
    have hlt := hbelow t (Version.mem_tablesNewestFirst.mp ht)
    omega

theorem id_of_outputMeta {id : Nat} {out : List Entry} {table : TableMeta}
    (h : outputMeta id out = some table) : table.id = id := by
  cases out with
  | nil => cases h
  | cons first rest => exact (Option.some.inj h) ▸ rfl

theorem Compacted.laidOut {v v' : Version} {T T' : Contents} {t : Nat}
    {above inputs below : List TableMeta} {out : List Entry}
    (h : Compacted v T t v' T' above inputs below out) (ha : Arranged v T) (hl : v.LaidOut) :
    v'.LaidOut where
  ascending tier ht := by
    obtain ⟨aboveTiers, belowTiers, hsplit, _, _, _, htiers⟩ := h.split
    have hold : ∀ t : List TableMeta, t ∈ aboveTiers ++ belowTiers → t ∈ v.tiers := by
      intro t ht
      rw [hsplit]
      rcases List.mem_append.mp ht with ht | ht
      · exact List.mem_append_left _ ht
      · exact List.mem_append_right _ (List.mem_cons_of_mem _ ht)
    rw [htiers] at ht
    rcases List.mem_append.mp ((List.rdropWhile_prefix _ _).subset ht) with ht | ht
    · exact hl.ascending tier (hold tier (List.mem_append_left _ ht))
    rcases List.mem_cons.mp ht with rfl | ht
    · exact .nil
    cases hout : outputMeta v.nextTableId out with
    | none =>
      rw [hout] at ht
      exact hl.ascending tier (hold tier (List.mem_append_right _ ht))
    | some table =>
      rw [hout] at ht
      rcases List.mem_cons.mp ht with rfl | ht
      · have hid := id_of_outputMeta hout
        cases belowTiers with
        | nil => exact List.pairwise_singleton _ _
        | cons first rest =>
          have hfirst := hold first (List.mem_append_right _ List.mem_cons_self)
          refine ascending_concat (hl.ascending first hfirst) fun x hx => ?_
          rw [hid]
          exact ha.below x (List.mem_flatten.mpr ⟨first, hfirst, hx⟩)
      · exact hl.ascending tier (hold tier (List.mem_append_right _ (List.mem_of_mem_tail ht)))
  distinct := by
    have hbefore := hl.distinct
    have hsub : (above ++ below).Sublist (above ++ inputs.reverse ++ below) :=
      (List.sublist_append_left above _).append (List.Sublist.refl below)
    rw [h.before] at hbefore
    have hkeep := hbefore.sublist (hsub.map TableMeta.id)
    rw [h.after]
    cases hout : outputMeta v.nextTableId out with
    | none => exact hkeep
    | some table =>
      have hid := id_of_outputMeta hout
      have hperm : (above ++ ([table] ++ below)).Perm (table :: (above ++ below)) :=
        List.perm_middle
      refine ((hperm.map TableMeta.id).nodup_iff).mpr ?_
      rw [List.map_cons, List.nodup_cons]
      refine ⟨fun hmem => ?_, hkeep⟩
      obtain ⟨x, hx, he⟩ := List.mem_map.mp hmem
      have hx' : x ∈ v.allTables := h.mem.mpr
        ((List.mem_append.mp hx).imp_right Or.inr)
      have hlt := ha.below x hx'
      omega

end AccretionDb
