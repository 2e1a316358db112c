import AccretionDb.Compaction.Merge

/-! # A changed byte in a table

Every byte of a table file is covered by a checksum, and every read checks the
checksum of what it read before it looks at it.  A change of one byte therefore
leaves each of these regions as it was or makes it fail its check
(`Spoiled.of_set`), and the reader answers as before or with `Corrupt`.
-/

namespace AccretionDb

open CrashLogic

/-- A range of a file with one byte replaced. -/
theorem slice_set (c : Bytes) (pos off len : Nat) (x : UInt8) :
    slice (c.set pos x) off len =
      if pos < off then slice c off len else (slice c off len).set (pos - off) x := by
  rw [slice, List.drop_set]
  by_cases h : pos < off
  · rw [if_pos h, if_pos h]
    rfl
  · rw [if_neg h, if_neg h, List.take_set]
    rfl

section Files

variable [TableHashing]

/-- **A changed byte spoils a file at most.** -/
theorem Spoiled.of_set (hd : DetectsByte Hashing.crc32) (c : Bytes) (pos : Nat) (x : UInt8) :
    Spoiled True c (c.set pos x) where
  length := List.length_set
  region off body h := by
    rw [Region, slice_set, h]
    by_cases hpos : pos < off
    · exact Or.inl (if_pos hpos)
    · rw [if_neg hpos]
      by_cases hin : pos - off < (withCrc body).length
      · by_cases hx : x = (withCrc body)[pos - off]
        · left
          rw [hx]
          exact List.set_getElem_self hin
        · exact Or.inr ⟨trivial, verifyCrc_set hd hin hx⟩
      · exact Or.inl (List.set_eq_of_length_le (Nat.le_of_not_lt hin))

/-- **What a builder finished ascends.** -/
theorem ascending_of_buildTable {s s' : SimFs} {path : Path} {n : FilterSize} {es : List Entry}
    {summary : SsTableSummary}
    (h : SimFs.exec (buildTable path n es) s () = some (.ok summary, s', ())) :
    Ascending es := by
  refine SimFs.exec_any (Q := fun _ => Ascending es) (R := fun _ => True) ?_ h
  refine wpE_bind.mpr (wpE_bind.mpr (wpE_mapError (wpE_device trivial trivial (fun _ _ _ =>
    ⟨trivial, ?_⟩) fun _ _ _ => ⟨trivial, trivial⟩)))
  refine wpE_bind.mpr (wpE_fits trivial fun _ => wpE_pure.mpr ⟨trivial, wpE_scope ?_⟩)
  refine wpE_bind.mpr (wpE_post (SsTableBuilder.wpE_addAll_ascending
    (R := fun _ _ => True) fun _ _ => trivial) (fun _ _ _ hsort => ?_) fun _ _ _ _ => trivial)
  exact SsTableBuilder.wpE_finish_serves (serves_any _) rfl trivial (fun _ _ _ _ => hsort.1)
    fun _ _ _ _ _ => trivial

/-- The file that a builder leaves. -/
theorem contents_of_buildTable {s s' : SimFs} {path : Path} {n : FilterSize} {es : List Entry}
    {summary : SsTableSummary} (hs : s.Tidy) (hseq : ∀ e ∈ es, e.2.seq < 2 ^ 64)
    (hfit : TableFits n (tableEntries es))
    (h : SimFs.exec (buildTable path n es) s () = some (.ok summary, s', ())) :
    s'.Tidy ∧ TableFile n (tableEntries es) ∧
      s'.contents path = some (tableBytes n (tableEntries es)) := by
  have hno : Faults.none.Any → ∀ P : Prop, P := fun ha _ => absurd ha Faults.not_any_none
  cases hl : (s.disk path).live with
  | some f =>
    -- the path was taken
    have hwp : wpE (Disk.sem Faults.none) False True (fun _ => True)
        (buildTable path n es) (fun _ _ => False) (fun _ _ => True) (s.disk, ()) := by
      refine wpE_bind.mpr (wpE_bind.mpr (wpE_mapError ?_))
      exact wpE_create_exists trivial (by rw [hl]; rfl) trivial fun _ _ => trivial
    exact (SimFs.exec_spec hs hwp h).2.2.elim
  | none =>
    have hwp : wpE (Disk.sem Faults.none) False True (fun _ => True)
        (buildTable path n es)
        (fun _ σ => TableFile n (tableEntries es) ∧ (σ.1 path).live =
          some ⟨tableBytes n (tableEntries es), []⟩) (fun _ _ => True)
        (s.disk, ()) :=
      wpE_buildTable (ascending_of_buildTable h) hseq hl (fun _ => hfit) trivial (fun _ => trivial)
        (fun ht => ⟨ht, Disk.live_put ..⟩) (fun ha _ => hno ha _) fun ha _ _ => hno ha _
    obtain ⟨hs', -, ht, hlive⟩ := SimFs.exec_spec hs hwp h
    refine ⟨hs', ht, ?_⟩
    rw [hs'.contents, hlive, Option.map_some, Blob.content_mk, List.append_nil]

/-- **Corruption is never a wrong answer.**  In a table that the builder finished, replace
one byte: `open` fails with `Corrupt`, or the reader answers every `get` as that of the
intact table does or with `Corrupt`, and its iterator yields the entries in order, all of
them or the first ones and one error. -/
theorem corruption_is_never_wrong (hd : DetectsByte Hashing.crc32) {s s₁ s₂ : SimFs} {path : Path}
    {n : FilterSize} {es : List Entry} {summary : SsTableSummary} (hs : s.Tidy)
    (hbuild : SimFs.exec (buildTable path n es) s () = some (.ok summary, s₁, ()))
    (hseq : ∀ e ∈ es, e.2.seq < 2 ^ 64)
    (hfit : TableFits n (tableEntries es)) (hs₂ : s₂.Tidy) {pos : Nat} {x : UInt8}
    (hfile : s₂.contents path = (s₁.contents path).map (·.set pos x)) (key : Bytes) :
    ∃ answer, (∃ s', SimFs.exec (readBack path key) s₁ () =
        some (.ok ((tableEntries es).map .ok, answer), s', ())) ∧
      ∃ r s₃, SimFs.exec (SsTableReader.open path) s₂ () = some (r, s₃, ()) ∧
        ((∃ msg, r = .error (.corrupt msg)) ∨ ∃ reader, r = .ok reader ∧
          (∃ g s₄, SimFs.exec (reader.get key) s₃ () = some (g, s₄, ()) ∧
            ((∃ msg, g = .error (.corrupt msg)) ∨ g = .ok answer)) ∧
          ∃ items s₄, SimFs.exec reader.iter s₃ () = some (.ok items, s₄, ()) ∧
            (items = (tableEntries es).map .ok ∨
              ∃ k msg, items = ((tableEntries es).take k).map .ok ++ [.error (.corrupt msg)])) := by
  have hno : Faults.none.Any → ∀ P : Prop, P := fun ha _ => absurd ha Faults.not_any_none
  obtain ⟨hs₁, ht, hc⟩ := contents_of_buildTable hs hseq hfit hbuild
  rw [hc, Option.map_some] at hfile
  refine ⟨(layerOf es key).map fun v => tableEntry (key, v), ?_, ?_⟩
  · obtain ⟨f, hf, hcon⟩ := hs₁.exists_blob hc
    obtain ⟨a, s', _, he, -, hq⟩ := SimFs.exec_ok (C := fun _ => True) (m := ())
      (p := readBack path key) (Q := fun a _ => a = ((tableEntries es).map .ok,
        (layerOf es key).map fun v => tableEntry (key, v))) hs₁
      (wpE_readBack ht trivial hf hcon rfl)
    rw [hq] at he
    exact ⟨s', he⟩
  · obtain ⟨f, hf, hcon⟩ := hs₂.exists_blob hfile
    have hsp : Spoiled True (tableBytes n (tableEntries es)) f.content :=
      hcon ▸ Spoiled.of_set hd _ pos x
    -- a call on the spoiled file answers, and leaves the storage as it is
    have hrun : ∀ {α : Type} {p : Io Unit SsTableError α} {Q : α → Prop} {s : SimFs}, s.Tidy →
        wpE (Disk.sem Faults.none) False False (fun _ => True) p (fun a σ => Q a ∧ σ.1 = s.disk)
          (fun err _ => ∃ msg, err = .corrupt msg) (s.disk, ()) →
        ∃ r s', SimFs.exec p s () = some (r, s', ()) ∧ s'.Tidy ∧
          ((∃ msg, r = .error (.corrupt msg)) ∨ ∃ a, r = .ok a ∧ Q a ∧ s'.disk = s.disk) := by
      intro α p Q s hs hwp
      obtain ⟨r, s', m', he⟩ := SimFs.exec_total hs hwp
      obtain ⟨hs', -, hr⟩ := SimFs.exec_spec hs hwp he
      refine ⟨r, s', he, hs', ?_⟩
      cases r with
      | ok a => exact Or.inr ⟨a, rfl, hr.1, hr.2⟩
      | error err =>
        obtain ⟨msg, rfl⟩ := hr
        exact Or.inl ⟨msg, rfl⟩
    obtain ⟨r, s₃, hopen, hs₃, hr⟩ := hrun hs₂ (SsTableReader.wpE_open_spoiled
      (Q := fun a σ => a = readerOf path n (tableEntries es) ∧ σ.1 = s₂.disk) ht
      trivial hf hsp ⟨rfl, rfl⟩ (fun _ msg => ⟨msg, rfl⟩) fun ha _ => hno ha _)
    refine ⟨r, s₃, hopen, hr.imp_right ?_⟩
    rintro ⟨reader, rfl, rfl, hdisk⟩
    rw [← hdisk] at hf
    refine ⟨_, rfl, ?_, ?_⟩
    · obtain ⟨g, s₄, hget, -, hg⟩ := hrun hs₃ (SsTableReader.wpE_get_spoiled
        (Q := fun a σ => a = SsTableReader.searchBlock (tableEntries es) key ∧ σ.1 = s₃.disk) ht
        trivial hf hsp ⟨rfl, rfl⟩ (fun _ msg => ⟨msg, rfl⟩) fun ha _ => hno ha _)
      refine ⟨g, s₄, hget, hg.imp_right ?_⟩
      rintro ⟨a, rfl, rfl, -⟩
      rw [searchBlock_tableEntries]
    · obtain ⟨items, s₄, _, hiter, -, hitems⟩ := SimFs.exec_ok (C := fun _ => True) (m := ()) hs₃
        (SsTableReader.wpE_iter_spoiled (R := fun _ _ => False) (Q := fun items _ =>
          items = (tableEntries es).map .ok ∨ ∃ k msg,
            items = ((tableEntries es).take k).map .ok ++ [.error (.corrupt msg)]) ht trivial hf hsp
          (Or.inl rfl) (fun _ k msg => Or.inr ⟨k, msg, rfl⟩) fun ha _ _ _ => hno ha _)
      exact ⟨items, s₄, hiter, hitems⟩

end Files

/-- A byte in the middle of the long value of `fourKeys` is changed, and a key of another
block is looked up. -/
theorem corruption_is_never_wrong_demo : letI := TableHashing.emptyKey
    ∃ (summary : SsTableSummary) (s₁ s₂ : SimFs) (answer : Option TableEntry),
      SimFs.exec (buildTable ⟨[], .sst 1⟩ (writeSize 4) fourKeys) (SimFs.new fun _ => 0) () =
        some (.ok summary, s₁, ()) ∧
      s₂.contents ⟨[], .sst 1⟩ = (s₁.contents ⟨[], .sst 1⟩).map (·.set 100 0) ∧
      (∃ s', SimFs.exec (readBack ⟨[], .sst 1⟩ [2]) s₁ () =
        some (.ok ((tableEntries fourKeys).map .ok, answer), s', ())) ∧
      ∃ r s₃, SimFs.exec (SsTableReader.open ⟨[], .sst 1⟩) s₂ () = some (r, s₃, ()) ∧
        ((∃ msg, r = .error (.corrupt msg)) ∨ ∃ reader, r = .ok reader ∧
          (∃ g s₄, SimFs.exec (reader.get [2]) s₃ () = some (g, s₄, ()) ∧
            ((∃ msg, g = .error (.corrupt msg)) ∨ g = .ok answer)) ∧
          ∃ items s₄, SimFs.exec reader.iter s₃ () = some (.ok items, s₄, ()) ∧
            (items = (tableEntries fourKeys).map .ok ∨ ∃ k msg,
              items = ((tableEntries fourKeys).take k).map .ok ++ [.error (.corrupt msg)])) := by
  let _ := TableHashing.emptyKey
  have hno : Faults.none.Any → ∀ P : Prop, P := fun ha _ => absurd ha Faults.not_any_none
  have hseq : ∀ e ∈ fourKeys, e.2.seq < 2 ^ 64 := by decide
  have hs := SimFs.new_tidy fun _ => 0
  have hfresh : ((SimFs.new fun _ => 0).disk ⟨[], .sst 1⟩).live = none := rfl
  obtain ⟨summary, s₁, _, hbuild, -⟩ := SimFs.exec_ok (C := fun _ => True) (m := ())
    (p := buildTable ⟨[], .sst 1⟩ (writeSize 4) fourKeys) (Q := fun _ _ => True) hs
    (wpE_buildTable (by decide) hseq hfresh (fun _ => fourKeys_fits) trivial
      (fun _ => trivial) (fun _ => trivial) (fun ha _ => hno ha _) fun ha _ _ => hno ha _)
  obtain ⟨-, -, hc⟩ := contents_of_buildTable hs hseq fourKeys_fits hbuild
  obtain ⟨s₂, hs₂, hc₂⟩ := SimFs.exists_contents ⟨[], .sst 1⟩
    ((tableBytes (writeSize 4) (tableEntries fourKeys)).set 100 0)
  have hfile : s₂.contents ⟨[], .sst 1⟩ = (s₁.contents ⟨[], .sst 1⟩).map (·.set 100 0) := by
    rw [hc, hc₂, Option.map_some]
  obtain ⟨answer, hanswer, hr⟩ := corruption_is_never_wrong crc32Ieee_detectsByte hs hbuild hseq
    fourKeys_fits hs₂ hfile [2]
  exact ⟨summary, s₁, s₂, answer, hbuild, hfile, hanswer, hr⟩

/-! ### A block whose length does not fit

The handle of a block holds its length modulo `2 ^ 32`, and every offset behind it is
computed from that.  A value of `2 ^ 32 - 4` bytes makes a block of `2 ^ 32 + 17`, so
the footer places the index and the filter at offset 17, where the value begins: what
the reader takes for them is part of the value. -/

section Wrapped

attribute [local instance] TableHashing.emptyKey

/-- The file of a table whose only block is as long as 17 modulo `2 ^ 32`. -/
def wrappedFile (value : Bytes) : Bytes :=
  withCrc (encodeEntry [] 1 (.put value)) ++ withCrc (encodeIndex [⟨[], 0, 17⟩]) ++
    withCrc (bloomOf (writeSize 1) [[]]).encode ++ withCrc (Footer.encode ⟨17, 24, 41, 28, 1⟩)

/-- The filter with the empty key in it. -/
theorem insert_nil : (BloomFilter.new 1 DEFAULT_BITS_PER_KEY).insert [] =
    some (bloomOf (writeSize 1) [[]]) := by
  have hsound : (BloomFilter.new 1 DEFAULT_BITS_PER_KEY).Sound := BloomFilter.sound_new (by decide)
  obtain ⟨b, hb⟩ := hsound.insert_isSome []
  have hbloom : bloomOf (writeSize 1) [[]] =
      ((BloomFilter.new 1 DEFAULT_BITS_PER_KEY).insert []).getD (.new 1 DEFAULT_BITS_PER_KEY) := rfl
  rw [hbloom, hb, Option.getD_some]

theorem wpE_buildTable_wrapped {d : Disk} {path : Path} {value : Bytes}
    (hlen : (withCrc (encodeEntry [] 1 (.put value))).length % 2 ^ 32 = 17)
    (hfresh : (d path).live = none) :
    wpE (Disk.sem Faults.none) False False (fun _ => True)
      (buildTable path (writeSize 1) [([], ⟨1, .value value⟩)])
      (fun _ σ => (σ.1 path).live = some ⟨wrappedFile value, []⟩) (fun _ _ => False) (d, ()) := by
  have hno : Faults.none.Any → ∀ P : Prop, P := fun ha _ => absurd ha Faults.not_any_none
  have hcalls : ∀ {f : Blob} {data : Bytes} {b : SsTableBuilder}
      {Q : Nat → Disk × SsTableBuilder → Prop}, (∀ off, Q off (d.put path (f.append data), b)) →
      wpE (Disk.sem Faults.none) False False (fun _ => True)
        ((storage (.append path data)).mapError SsTableError.storage) Q (fun _ _ => False)
        (d.put path f, b) := fun h =>
    wpE_mapError (wpE_append_put (fun _ => trivial) (h _) fun ha _ _ => hno ha _)
  have hne : encodeEntry [] 1 (.put value) ≠ [] := encode_ne_nil ⟨[], 1, .put value⟩
  have hfilter : BloomFilter.new (writeSize 1).expectedKeys (writeSize 1).bitsPerKey =
      .new 1 DEFAULT_BITS_PER_KEY := rfl
  refine wpE_bind.mpr (wpE_bind.mpr (wpE_mapError (wpE_create trivial hfresh ⟨trivial, ?_⟩
    fun hf _ => hno (Faults.any_of_fail hf) _)))
  refine wpE_bind.mpr (wpE_fits trivial fun _ => wpE_pure.mpr ⟨trivial, wpE_scope ?_⟩)
  -- the entry goes into the open block
  refine wpE_bind.mpr (wpE_bind.mpr (wpE_bind.mpr (wpE_get trivial ?_)))
  rw [if_neg (by rintro ⟨_, h, _⟩; cases h), if_neg fun h => h.1 rfl]
  refine wpE_bind.mpr (wpE_fits trivial fun _ => wpE_bind.mpr (wpE_get trivial ?_))
  dsimp only
  rw [show valueRef ⟨1, .value value⟩ = Value.put value from rfl, hfilter, insert_nil]
  refine wpE_modify trivial trivial (wpE_pure.mpr ⟨trivial, ?_⟩)
  -- the block is sealed, with a handle of length 17
  refine wpE_bind.mpr (wpE_bind.mpr (wpE_get trivial ?_))
  have hblock : [] ++ encodeEntry [] 1 (.put value) = encodeEntry [] 1 (.put value) :=
    List.nil_append _
  simp only [SsTableBuilder.push, hblock, if_neg hne]
  refine wpE_bind.mpr (wpE_modify trivial trivial (wpE_bind.mpr (wpE_fits trivial fun _ => ?_)))
  refine wpE_bind.mpr (hcalls fun _ => wpE_modify trivial trivial ?_)
  rw [hlen]
  -- the index, the filter and the footer
  refine wpE_bind.mpr (wpE_get trivial (wpE_bind.mpr (wpE_fits trivial fun _ => ?_)))
  refine wpE_bind.mpr (hcalls fun _ => wpE_bind.mpr (wpE_fits trivial fun _ => ?_))
  refine wpE_bind.mpr (hcalls fun _ => wpE_bind.mpr (hcalls fun _ => ?_))
  refine wpE_bind.mpr (wpE_mapError (wpE_syncFile_put (fun _ => trivial) ?_ fun ha _ _ => hno ha _))
  refine wpE_pure.mpr ⟨trivial, (Disk.live_put ..).trans ?_⟩
  have hindex : (withCrc (encodeIndex [⟨[], 0, 17⟩])).length = 24 := by
    rw [length_withCrc]
    decide
  have hbloom : (withCrc (bloomOf (writeSize 1) [[]]).encode).length = 28 := by
    rw [length_withCrc]
    decide +kernel
  simp only [List.nil_append, Option.getD_none, hindex, hbloom, Nat.zero_add, Nat.reduceMod,
    Nat.reduceAdd, Nat.reducePow, Blob.append, Blob.sync, Blob.content, Blob.empty, wrappedFile]

/-- The index that a value can hold: one block of 22 bytes at offset 69. -/
def innerIndex : List BlockHandle := [⟨[], 69, 22⟩]

/-- The block that a value can hold. -/
def innerBlock : List TableEntry := [⟨[], 9, .put [7]⟩]

/-- A file whose footer places the index at 17 and the filter at 41. -/
def crafted (head index rest : Bytes) : Bytes :=
  head ++ index ++ withCrc (bloomOf (writeSize 1) [[]]).encode ++ sealedBlock innerBlock ++ rest ++
    withCrc (Footer.encode ⟨17, 24, 41, 28, 1⟩)

/-- The value of a wrapped file is all that its reader sees. -/
theorem wrappedFile_eq (index rest : Bytes) : ∃ head rest', head.length = 17 ∧
    wrappedFile (index ++ withCrc (bloomOf (writeSize 1) [[]]).encode ++ sealedBlock innerBlock ++ rest) =
      crafted head index rest' := by
  obtain ⟨value, hv⟩ : ∃ v, v =
      index ++ withCrc (bloomOf (writeSize 1) [[]]).encode ++ sealedBlock innerBlock ++ rest := ⟨_, rfl⟩
  refine ⟨leBytes 4 ([] : Bytes).length ++ (leBytes 8 1 ++ (leBytes 1 TAG_PUT ++
    leBytes 4 value.length)), rest ++ leBytes 4 (Hashing.crc32 (encodeEntry [] 1 (.put value))).toNat ++
    withCrc (encodeIndex [⟨[], 0, 17⟩]) ++ withCrc (bloomOf (writeSize 1) [[]]).encode, ?_, ?_⟩
  · simp only [List.length_append, length_leBytes]
  · rw [← hv, wrappedFile, crafted, withCrc, encodeEntry]
    simp only [hv, List.nil_append, List.append_assoc]

theorem crafted_set {head index rest : Bytes} (hh : head.length = 17) (x y : UInt8) :
    (crafted head (x :: index) rest).set 17 y = crafted head (y :: index) rest := by
  simp only [crafted, List.append_assoc, List.cons_append]
  rw [← hh, List.set_append_right _ _ (Nat.le_refl _), Nat.sub_self, List.set_cons_zero]

theorem slice_crafted {head index : Bytes} (hh : head.length = 17) (hi : index.length = 24)
    (rest : Bytes) : slice (crafted head index rest) 17 24 = index := by
  rw [crafted, ← hh, ← hi]
  simp only [List.append_assoc]
  rw [← List.append_assoc]
  exact slice_mid _ _ _

theorem length_innerIndex : (withCrc (encodeIndex innerIndex)).length = 24 := by
  rw [length_withCrc]
  decide

theorem length_bloomOf_nil : (withCrc (bloomOf (writeSize 1) [[]]).encode).length = 28 := by
  rw [length_withCrc]
  decide +kernel

theorem length_innerBlock : (sealedBlock innerBlock).length = 22 := by
  rw [sealedBlock, length_withCrc]
  decide

section Open

variable {d : Disk} {path : Path} {f : Blob} {head index rest : Bytes} {bad : Prop}

/-- `open` goes by the index that the value holds. -/
theorem wpE_open_crafted {Q : SsTableReader → Disk × Unit → Prop}
    {R : SsTableError → Disk × Unit → Prop} (hlive : (d path).live = some f)
    (hf : f.content = crafted head index rest) (hh : head.length = 17) (hi : index.length = 24)
    (hr : Region bad f.content 17 (encodeIndex innerIndex))
    (hok : index = withCrc (encodeIndex innerIndex) → Q ⟨path, innerIndex, bloomOf (writeSize 1) [[]], 1⟩ (d, ()))
    (hbad : bad → ∀ msg, R (.corrupt msg) (d, ())) :
    wpE (Disk.sem Faults.none) False False (fun _ => True) (SsTableReader.open path) Q R (d, ()) := by
  have hfoot : (withCrc (Footer.encode ⟨17, 24, 41, 28, 1⟩)).length = FOOTER_SIZE := by
    rw [length_withCrc, length_footer]
  have hlen : f.content.length = 17 + 24 + 28 + 22 + rest.length + FOOTER_SIZE := by
    rw [hf, crafted, List.length_append, List.length_append, List.length_append, List.length_append,
      List.length_append, hfoot, length_innerBlock, length_bloomOf_nil, hh, hi]
  have hsize : FOOTER_SIZE = 48 := rfl
  have hdec : decodeIndex (withCrc (encodeIndex innerIndex)) = .ok innerIndex := by
    refine decodeIndex_encodeIndex (length_leBytes 4 _) (by decide) fun x hx => ?_
    rw [List.mem_singleton.mp hx]
    exact ⟨by decide, by decide, by decide⟩
  refine SsTableReader.wpE_open_at (F := ⟨17, 24, 41, 28, 1⟩) trivial hlive
    (by omega) ⟨by decide, by decide, by decide, by decide, by decide⟩ (Or.inl ?_) length_innerIndex
    ?_ hr hdec length_bloomOf_nil ?_ (Or.inl ?_) (sound_bloomOf (by decide) _) (fun hs => hok ?_) hbad
    fun ha => absurd ha Faults.not_any_none
  · have hoff : f.content.length - FOOTER_SIZE = (head ++ index ++
        withCrc (bloomOf (writeSize 1) [[]]).encode ++ sealedBlock innerBlock ++ rest).length := by
      rw [hf, crafted, List.length_append, hfoot, Nat.add_sub_cancel]
    rw [hoff, hf, crafted]
    conv_lhs => rw [← List.append_nil (_ ++ withCrc _)]
    exact slice_mid _ _ _
  · show 17 + 24 ≤ _
    omega
  · show 41 + 28 ≤ _
    omega
  · have hoff : 41 = (head ++ index).length := by rw [List.length_append, hh, hi]
    rw [hf, crafted, List.append_assoc, List.append_assoc]
    show slice _ 41 _ = _
    rw [hoff]
    exact slice_mid _ _ _
  · rw [← hs, hf]
    exact (slice_crafted hh hi rest).symm

/-- `get` goes by the block that the value holds. -/
theorem wpE_get_crafted {Q : Option TableEntry → Disk × Unit → Prop}
    {R : SsTableError → Disk × Unit → Prop} (hlive : (d path).live = some f)
    (hf : f.content = crafted head index rest) (hh : head.length = 17) (hi : index.length = 24)
    (hok : Q (some ⟨[], 9, .put [7]⟩) (d, ())) :
    wpE (Disk.sem Faults.none) False False (fun _ => True)
      (SsTableReader.get ⟨path, innerIndex, bloomOf (writeSize 1) [[]], 1⟩ []) Q R (d, ()) := by
  have hbloom : (bloomOf (writeSize 1) [[]]).contains [] = true := by decide +kernel
  rw [SsTableReader.get, if_pos hbloom]
  have hr : Region False f.content 69 (encodeBlock innerBlock) := by
    refine Or.inl ?_
    have hoff : 69 = (head ++ index ++ withCrc (bloomOf (writeSize 1) [[]]).encode).length := by
      rw [List.length_append, List.length_append, hh, hi, length_bloomOf_nil]
    rw [hf, crafted, List.append_assoc]
    show slice _ 69 _ = _
    rw [hoff]
    exact slice_mid _ _ _
  refine wpE_bind.mpr (SsTableReader.wpE_loadBlock_at (b := innerBlock) (h := ⟨[], 69, 22⟩) trivial
    hlive length_innerBlock ?_ hr (fun x hx => ?_) (wpE_pure.mpr ⟨trivial, hok⟩) (fun h => h.elim)
    fun ha => absurd ha Faults.not_any_none)
  · rw [hf, crafted]
    simp only [List.length_append, length_innerBlock, length_bloomOf_nil, hh, hi]
    omega
  · rw [List.mem_singleton.mp hx]
    exact ⟨⟨by decide, fun v hv => by cases hv; decide⟩, by decide⟩

end Open

/-- **A value of `2 ^ 32 - 4` bytes can make a wrong answer.**  The builder finishes its
table, which does not open; with one byte changed it opens, and `get` finds what the
value holds, not what was added under the key. -/
theorem wrong_answer : letI := TableHashing.emptyKey
    ∃ (value : Bytes) (summary : SsTableSummary) (s₁ s₂ : SimFs),
      SimFs.exec (buildTable ⟨[], .sst 1⟩ (writeSize 1) [([], ⟨1, .value value⟩)])
        (SimFs.new fun _ => 0) () = some (.ok summary, s₁, ()) ∧
      s₂.Tidy ∧ s₂.contents ⟨[], .sst 1⟩ = (s₁.contents ⟨[], .sst 1⟩).map (·.set 17 1) ∧
      (∃ msg s', SimFs.exec (SsTableReader.open ⟨[], .sst 1⟩) s₁ () =
        some (.error (.corrupt msg), s', ())) ∧
      ∃ reader s₃ s₄, SimFs.exec (SsTableReader.open ⟨[], .sst 1⟩) s₂ () =
          some (.ok reader, s₃, ()) ∧
        SimFs.exec (reader.get []) s₃ () = some (.ok (some ⟨[], 9, .put [7]⟩), s₄, ()) := by
  obtain ⟨index, hidx⟩ : ∃ index, withCrc (encodeIndex innerIndex) = 1 :: index := ⟨_, rfl⟩
  have hilen : (1 :: index).length = 24 := by rw [← hidx, length_innerIndex]
  have hilen' : ((0 : UInt8) :: index).length = 24 := hilen
  obtain ⟨k, hk⟩ : ∃ k, k = 2 ^ 32 - 78 := ⟨_, rfl⟩
  obtain ⟨value, hvalue⟩ : ∃ v, v = (0 :: index) ++ withCrc (bloomOf (writeSize 1) [[]]).encode ++
    sealedBlock innerBlock ++ List.replicate k 0 := ⟨_, rfl⟩
  have hvlen : value.length = 2 ^ 32 - 4 := by
    rw [hvalue, List.length_append, List.length_append, List.length_append, length_bloomOf_nil,
      length_innerBlock, List.length_replicate, List.length_cons, ← List.length_cons, hilen, hk]
    rfl
  have hlen : (withCrc (encodeEntry [] 1 (.put value))).length % 2 ^ 32 = 17 := by
    rw [length_withCrc, length_encodeEntry, encodedEntryLen, valuePart, hvlen]
    decide
  obtain ⟨head, rest, hh, hfile⟩ := wrappedFile_eq (0 :: index) (List.replicate k 0)
  rw [← hvalue] at hfile
  -- the table as the builder leaves it
  have hs := SimFs.new_tidy fun _ => 0
  have hfresh : ((SimFs.new fun _ => 0).disk ⟨[], .sst 1⟩).live = none := rfl
  obtain ⟨summary, s₁, _, hbuild, hs₁, hlive₁⟩ := SimFs.exec_ok (m := ()) hs
    (wpE_buildTable_wrapped hlen hfresh)
  have hc₁ : s₁.contents ⟨[], .sst 1⟩ = some (crafted head (0 :: index) rest) := by
    rw [hs₁.contents, hlive₁, Option.map_some, Blob.content_mk, List.append_nil, hfile]
  -- the same file with one byte changed
  obtain ⟨s₂, hs₂, hc₂⟩ := SimFs.exists_contents ⟨[], .sst 1⟩ (crafted head (1 :: index) rest)
  refine ⟨value, summary, s₁, s₂, hbuild, hs₂, ?_, ?_, ?_⟩
  · rw [hc₁, Option.map_some, crafted_set hh, hc₂]
  · -- the index in the value does not match its CRC
    obtain ⟨f, hf, hcon⟩ := hs₁.exists_blob hc₁
    have hbad : Region True f.content 17 (encodeIndex innerIndex) := by
      refine Or.inr ⟨trivial, fun what => ?_⟩
      have hslice : slice (crafted head (0 :: index) rest) 17 24 = 0 :: index :=
        slice_crafted hh hilen' rest
      have hset : (withCrc (encodeIndex innerIndex)).set 0 0 = 0 :: index := by
        rw [hidx, List.set_cons_zero]
      rw [length_innerIndex, hcon, hslice, ← hset]
      refine verifyCrc_set crc32Ieee_detectsByte (by rw [length_innerIndex]; decide) ?_ what
      simp only [hidx, List.getElem_cons_zero]
      decide
    have hwp := wpE_open_crafted (Q := fun _ _ => False) (R := fun err _ => ∃ msg, err = .corrupt msg)
      hf hcon hh hilen' hbad (fun h => ?_) fun _ msg => ⟨msg, rfl⟩
    · obtain ⟨r, s', _, hopen⟩ := SimFs.exec_total hs₁ hwp
      obtain ⟨-, -, hr⟩ := SimFs.exec_spec hs₁ hwp hopen
      cases r with
      | ok reader => exact hr.elim
      | error err =>
        obtain ⟨msg, rfl⟩ := hr
        exact ⟨msg, s', hopen⟩
    · rw [hidx] at h
      cases h
  · obtain ⟨f, hf, hcon⟩ := hs₂.exists_blob hc₂
    have hr : Region False f.content 17 (encodeIndex innerIndex) := by
      refine Or.inl ?_
      rw [hcon, length_innerIndex, slice_crafted hh hilen, hidx]
    obtain ⟨reader, s₃, _, hopen, hs₃, rfl, hdisk⟩ := SimFs.exec_ok (m := ()) hs₂
      (wpE_open_crafted (Q := fun r σ =>
        r = ⟨⟨[], .sst 1⟩, innerIndex, bloomOf (writeSize 1) [[]], 1⟩ ∧ σ.1 = s₂.disk) hf hcon hh hilen hr (fun _ => ⟨rfl, rfl⟩) fun h => h.elim)
    have hf₃ : (s₃.disk ⟨[], .sst 1⟩).live = some f := by
      rw [show s₃.disk = s₂.disk from hdisk]
      exact hf
    obtain ⟨e, s₄, _, hget, -, rfl⟩ := SimFs.exec_ok (m := ()) (p := SsTableReader.get _ [])
      (Q := fun a _ => a = some ⟨[], 9, .put [7]⟩) hs₃
      (wpE_get_crafted hf₃ hcon hh hilen rfl)
    exact ⟨_, s₃, s₄, hopen, hget⟩

end Wrapped

end AccretionDb
