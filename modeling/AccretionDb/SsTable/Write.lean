import AccretionDb.SsTable.Builder

/-! # What the builder leaves in the file

`Building` is the builder in the middle of its work.  Every method keeps it, and
`wpE_finish` ends with the file `tableBytes`, synced.  Where a call may fail, the
file at the path is the only thing that an error leaves changed.
-/

namespace AccretionDb

open CrashLogic

variable [TableHashing]

/-- The builder was given `es`, and has the blocks `bs`. -/
structure Building (path : Path) (n : FilterSize) (bs : Blocks) (es : List TableEntry)
    (b : SsTableBuilder) : Prop where
  path : b.path = path
  block : b.block = encodeBlock bs.current
  blockFirstKey : b.blockFirstKey = bs.current.head?.map TableEntry.key
  index : b.index = handles 0 bs.done
  offset : b.offset = (dataBytes bs.done).length
  bloom : b.bloom = bloomOf n (es.map TableEntry.key)
  numEntries : b.numEntries = es.length
  lastKey : b.lastKey = es.getLast?.map TableEntry.key
  firstKey : b.firstKey = es.head?.map TableEntry.key
  fits : ∀ x ∈ bs.done, (sealedBlock x).length < 2 ^ 32
  lengths : ∀ x ∈ es, LengthsFit x.key x.value
  bits : n.Fits

namespace Building

variable {path : Path} {n : FilterSize} {bs : Blocks} {es : List TableEntry} {b : SsTableBuilder}

/-- The open block was sealed. -/
theorem close {x : TableEntry} {xs : List TableEntry} (hb : Building path n bs es b)
    (hcur : bs.current = x :: xs) (hlen : (sealedBlock bs.current).length < 2 ^ 32) :
    Building path n bs.close es
      { b with
        offset := b.offset + (sealedBlock bs.current).length
        index := b.index ++ [⟨x.key, b.offset, (sealedBlock bs.current).length⟩]
        blockFirstKey := none
        block := [] } := by
  have hclose : bs.close = ⟨bs.done ++ [bs.current], []⟩ := by
    rw [Blocks.close, if_neg (by rw [hcur]; exact List.cons_ne_nil _ _)]
  rw [hclose]
  refine { hb with block := rfl, blockFirstKey := rfl, index := ?_, offset := ?_, fits := ?_ }
  · show b.index ++ _ = handles 0 (bs.done ++ [bs.current])
    rw [handles_append, hb.index, hb.offset, Nat.zero_add]
    simp only [handles, headKey, hcur, List.head?_cons, Option.map_some, Option.getD_some]
  · show b.offset + _ = (dataBytes (bs.done ++ [bs.current])).length
    rw [dataBytes_append, List.length_append, hb.offset, dataBytes, dataBytes, List.flatMap_cons,
      List.flatMap_nil, List.append_nil]
  · intro y hy
    rcases List.mem_append.mp hy with hy | hy
    · exact hb.fits y hy
    · rw [List.mem_singleton.mp hy]
      exact hlen

/-- One more entry is in the open block. -/
theorem push {x : TableEntry} {bloom : BloomFilter} (hb : Building path n bs es b)
    (hx : LengthsFit x.key x.value) (hbloom : b.bloom.insert x.key = some bloom) :
    Building path n ⟨bs.done, bs.current ++ [x]⟩ (es ++ [x]) (b.push x.key x.seq x.value bloom) := by
  refine { hb with
    block := ?_, blockFirstKey := ?_, bloom := ?_, numEntries := ?_, lastKey := ?_, firstKey := ?_
    lengths := ?_ }
  · show b.block ++ _ = _
    rw [hb.block, encodeBlock_concat]
    rfl
  · show some (b.blockFirstKey.getD x.key) = _
    rw [hb.blockFirstKey]
    cases bs.current <;> rfl
  · show bloom = _
    rw [List.map_append, List.map_singleton, bloomOf_concat, ← hb.bloom, hbloom, Option.getD_some]
  · show b.numEntries + 1 = _
    rw [hb.numEntries, List.length_append, List.length_singleton]
  · show some x.key = _
    rw [List.getLast?_concat, Option.map_some]
  · show some (b.firstKey.getD x.key) = _
    rw [hb.firstKey]
    cases es <;> rfl
  · intro y hy
    rcases List.mem_append.mp hy with hy | hy
    · exact hb.lengths y hy
    · rw [List.mem_singleton.mp hy]
      exact hx

end Building

namespace SsTableBuilder

variable {e : Faults} {strict H : Prop} {d : Disk} {path : Path} {n : FilterSize}
variable {C : Disk × SsTableBuilder → Prop} {R : SsTableError → Disk × SsTableBuilder → Prop}

theorem wpE_sealBlock {bs : Blocks} {es : List TableEntry} {b : SsTableBuilder}
    {Q : Unit → Disk × SsTableBuilder → Prop} (hb : Building path n bs es b)
    (hfit : ¬ strict → bs.current ≠ [] → (sealedBlock bs.current).length < 2 ^ 32)
    (hC : ∀ f b, C (d.put path f, b))
    (hok : ∀ b', Building path n bs.close es b' →
      Q () (d.put path ⟨[], dataBytes bs.close.done⟩, b'))
    (herr : e.Any → ∀ err f b', R err (d.put path f, b')) :
    wpE (Disk.sem e) strict H C sealBlock Q R (d.put path ⟨[], dataBytes bs.done⟩, b) := by
  obtain rfl := hb.path
  refine wpE_bind.mpr (wpE_get (hC _ _) ?_)
  by_cases hnil : bs.current = []
  · have hblock : b.block = [] := by rw [hb.block, hnil, encodeBlock_nil]
    have hclose : bs.close = bs := by rw [Blocks.close, if_pos hnil]
    rw [if_pos hblock]
    rw [hclose] at hok
    exact wpE_pure.mpr ⟨hC _ _, hok b hb⟩
  · have hblock : ¬ b.block = [] := by rwa [hb.block, encodeBlock_eq_nil]
    have hbytes : withCrc b.block = sealedBlock bs.current := by rw [hb.block, sealedBlock]
    obtain ⟨x, xs, hcur⟩ := List.exists_cons_of_ne_nil hnil
    rw [if_neg hblock]
    refine wpE_bind.mpr (wpE_modify (hC _ _) (hC _ _) ?_)
    refine wpE_bind.mpr (wpE_fits (hC _ _) fun hmark => ?_)
    have hlen : (sealedBlock bs.current).length < 2 ^ 32 := by
      by_cases hs : strict
      · exact hbytes ▸ hmark hs
      · exact hfit hs hnil
    have hkey : b.blockFirstKey = some x.key := by
      rw [hb.blockFirstKey, hcur]
      rfl
    have hput : (Blob.mk [] (dataBytes bs.done)).append (sealedBlock bs.current) =
        ⟨[], dataBytes bs.close.done⟩ := by
      rw [Blocks.close, if_neg hnil, dataBytes_append, dataBytes, dataBytes, List.flatMap_cons,
        List.flatMap_nil, List.append_nil, Blob.append]
    refine wpE_bind.mpr (wpE_mapError (wpE_append_put (fun f => hC f _) ?_ fun ha err f =>
      herr ha _ f _))
    rw [hkey, hbytes, Nat.mod_eq_of_lt hlen, hput]
    exact wpE_modify (hC _ _) (hC _ _) (hok _ (hb.close hcur hlen))

theorem wpE_add {es : List TableEntry} {x : TableEntry} {b : SsTableBuilder}
    {Q : Unit → Disk × SsTableBuilder → Prop} (hb : Building path n (blocksOf es) es b)
    (hlast : ∀ y ∈ es.getLast?, y.key < x.key)
    (hfit : ¬ strict → (∀ blk, blk ∈ ((blocksOf es).push x).done →
      (sealedBlock blk).length < 2 ^ 32) ∧ LengthsFit x.key x.value)
    (hC : ∀ f b, C (d.put path f, b))
    (hok : ∀ b', Building path n (blocksOf (es ++ [x])) (es ++ [x]) b' →
      Q () (d.put path ⟨[], dataBytes (blocksOf (es ++ [x])).done⟩, b'))
    (herr : e.Any → ∀ err f b', R err (d.put path f, b')) :
    wpE (Disk.sem e) strict H C (add x.key x.seq x.value) Q R
      (d.put path ⟨[], dataBytes (blocksOf es).done⟩, b) := by
  have hlate : ¬ b.Late x.key := by
    rintro ⟨prev, hprev, hle⟩
    rw [hb.lastKey, Option.map_eq_some_iff] at hprev
    obtain ⟨y, hy, rfl⟩ := hprev
    exact absurd (hlast y hy) (not_lt_of_ge hle)
  have hcrowd : b.Crowded x.key x.value ↔ (blocksOf es).Crowded x := by
    rw [SsTableBuilder.Crowded, Blocks.Crowded, hb.block, ne_eq, encodeBlock_eq_nil]
  -- what follows runs once the block is sealed or found to have room
  have hroom : ∀ q : Unit → Io SsTableBuilder SsTableError Unit,
      (∀ bs b, Building path n bs es b → blocksOf (es ++ [x]) = ⟨bs.done, bs.current ++ [x]⟩ →
        wpE (Disk.sem e) strict H C (q ()) Q R (d.put path ⟨[], dataBytes bs.done⟩, b)) →
      wpE (Disk.sem e) strict H C (if b.Crowded x.key x.value then sealBlock >>= q else q ()) Q R
        (d.put path ⟨[], dataBytes (blocksOf es).done⟩, b) := by
    intro q hq
    by_cases hc : (blocksOf es).Crowded x
    · have hpush : blocksOf (es ++ [x]) =
          ⟨(blocksOf es).close.done, (blocksOf es).close.current ++ [x]⟩ := by
        rw [blocksOf_concat, Blocks.push, if_pos hc]
      rw [if_pos (hcrowd.mpr hc)]
      refine wpE_bind.mpr ?_
      refine wpE_sealBlock hb (fun hs _ => (hfit hs).1 _ ?_) hC (fun b' hb' => hq _ b' hb' hpush) herr
      rw [← blocksOf_concat, hpush]
      show _ ∈ (blocksOf es).close.done
      rw [Blocks.close, if_neg hc.1]
      exact List.mem_append_right _ List.mem_cons_self
    · have hpush : blocksOf (es ++ [x]) = ⟨(blocksOf es).done, (blocksOf es).current ++ [x]⟩ := by
        rw [blocksOf_concat, Blocks.push, if_neg hc]
      rw [if_neg fun h => hc (hcrowd.mp h)]
      exact hq _ b hb hpush
  refine wpE_bind.mpr (wpE_get (hC _ _) ?_)
  show wpE _ _ _ _ (if b.Late x.key then _ else _) _ _ _
  rw [if_neg hlate]
  refine hroom _ fun bs b hb hbs => ?_
  refine wpE_bind.mpr (wpE_fits (hC _ _) fun hmark => wpE_bind.mpr (wpE_get (hC _ _) ?_))
  have hx : LengthsFit x.key x.value := by
    by_cases hs : strict
    · exact hmark hs
    · exact (hfit hs).2
  obtain ⟨bloom, hbloom⟩ := (hb.bloom ▸ sound_bloomOf hb.bits _ : b.bloom.Sound).insert_isSome x.key
  dsimp only
  rw [hbloom]
  rw [hbs] at hok
  exact wpE_modify (hC _ _) (hC _ _) (hok _ (hb.push hx hbloom))

theorem wpE_finish {es : List TableEntry} {b : SsTableBuilder}
    {Q : SsTableSummary → Disk × SsTableBuilder → Prop} (hb : Building path n (blocksOf es) es b)
    (hfit : ¬ strict → TableFits n es) (hC : ∀ f b, C (d.put path f, b))
    (hok : TableFits n es → ∀ b', Q ⟨es.length, es.head?.map TableEntry.key,
      es.getLast?.map TableEntry.key, (tableBytes n es).length⟩
        (d.put path ⟨tableBytes n es, []⟩, b'))
    (herr : e.Any → ∀ err f b', R err (d.put path f, b')) :
    wpE (Disk.sem e) strict H C finish Q R (d.put path ⟨[], dataBytes (blocksOf es).done⟩, b) := by
  refine wpE_bind.mpr (wpE_sealBlock hb (fun hs hne => (hfit hs).blocks _ ?_) hC (fun b hb => ?_) herr)
  · rw [tableBlocks, Blocks.close, if_neg hne]
    exact List.mem_append_right _ List.mem_cons_self
  have hcalls : ∀ {f : Blob} {data : Bytes} {Q : Nat → Disk × SsTableBuilder → Prop},
      (∀ off, Q off (d.put path (f.append data), b)) →
      wpE (Disk.sem e) strict H C ((storage (.append path data)).mapError .storage) Q R
        (d.put path f, b) := fun h =>
    wpE_mapError (wpE_append_put (fun f => hC f b) (h _) fun ha err f => herr ha _ f b)
  have hindex : withCrc (encodeIndex b.index) = indexBytes es := by
    rw [hb.index, indexBytes, tableBlocks]
  have hbytes : withCrc b.bloom.encode = bloomBytes n es := by rw [hb.bloom, bloomBytes]
  refine wpE_bind.mpr (wpE_get (hC _ _) (wpE_bind.mpr (wpE_fits (hC _ _) fun hmark => ?_)))
  have hlen : (indexBytes es).length < 2 ^ 32 := by
    by_cases hs : strict
    · exact hindex ▸ (hmark hs).2.2
    · exact (hfit hs).index
  rw [hb.path]
  refine wpE_bind.mpr (hcalls fun _ => wpE_bind.mpr (wpE_fits (hC _ _) fun hmark => ?_))
  have hbloom : (bloomBytes n es).length < 2 ^ 32 := by
    by_cases hs : strict
    · exact hbytes ▸ hmark hs
    · exact (hfit hs).bloom
  refine wpE_bind.mpr (hcalls fun _ => wpE_bind.mpr (hcalls fun _ => ?_))
  rw [hindex, hbytes, hb.offset, hb.numEntries, Nat.mod_eq_of_lt hlen, Nat.mod_eq_of_lt hbloom]
  have hfits : TableFits n es := ⟨hb.fits, hlen, hb.bits, hbloom⟩
  refine wpE_bind.mpr (wpE_mapError (wpE_syncFile_put (fun f => hC f b) ?_ fun ha err f =>
    herr ha _ f b))
  refine wpE_pure.mpr ⟨hC _ _, ?_⟩
  have hlength : (tableBytes n es).length = (dataBytes (tableBlocks es)).length +
      (indexBytes es).length + (bloomBytes n es).length + (withCrc (footerOf n es).encode).length := by
    rw [tableBytes, List.length_append, List.length_append, List.length_append]
  have h := hok hfits b
  rw [hlength, tableBytes, footerOf] at h
  rw [hb.firstKey, hb.lastKey]
  have hfile : ∀ x y : Bytes, ((Blob.mk [] x).append y).sync = ⟨x ++ y, []⟩ := fun _ _ => rfl
  rw [Blob.append_append, Blob.append_append, hfile, ← List.append_assoc, ← List.append_assoc]
  exact h

end SsTableBuilder

end AccretionDb
