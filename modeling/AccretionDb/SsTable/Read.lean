import AccretionDb.SsTable.Reader

/-! # What the reader finds

The reader of a file that the builder wrote is `readerOf`, and its methods answer
from the entries that are in the file.  A read leaves the disk as it is, and its only
errors are injected ones, and, on a file that is `Spoiled`, those of a region that does
not match its CRC.
-/

namespace AccretionDb

open CrashLogic

variable [TableHashing]

/-! ### Where the parts of a file lie -/

theorem handles_getElem? (off i : Nat) (bs : List (List TableEntry)) :
    (handles off bs)[i]? = bs[i]?.map fun b =>
      ⟨headKey b, off + (dataBytes (bs.take i)).length, (sealedBlock b).length⟩ := by
  induction bs generalizing off i with
  | nil => rfl
  | cons b bs ih =>
    cases i with
    | zero => rfl
    | succ i =>
      have hlen : (dataBytes ((b :: bs).take (i + 1))).length =
          (sealedBlock b).length + (dataBytes (bs.take i)).length := by
        rw [List.take_succ_cons]
        exact List.length_append
      rw [handles, List.getElem?_cons_succ, List.getElem?_cons_succ, ih, hlen, Nat.add_assoc]

theorem takeWhile_handles (off : Nat) (key : Bytes) (bs : List (List TableEntry)) :
    ((handles off bs).takeWhile fun h => decide (h.firstKey ≤ key)).length =
      (bs.takeWhile fun b => decide (headKey b ≤ key)).length := by
  induction bs generalizing off with
  | nil => rfl
  | cons b bs ih =>
    rw [handles, List.takeWhile_cons, List.takeWhile_cons]
    by_cases hk : headKey b ≤ key
    · rw [if_pos (decide_eq_true hk), if_pos (decide_eq_true hk), List.length_cons,
        List.length_cons, ih]
    · rw [if_neg (by simpa using hk), if_neg (by simpa using hk), List.length_nil, List.length_nil]

theorem mem_handles {off : Nat} {bs : List (List TableEntry)} {h : BlockHandle}
    (hh : h ∈ handles off bs) : ∃ i b, bs[i]? = some b ∧
      h = ⟨headKey b, off + (dataBytes (bs.take i)).length, (sealedBlock b).length⟩ := by
  obtain ⟨i, hi⟩ := List.mem_iff_getElem?.mp hh
  rw [handles_getElem?, Option.map_eq_some_iff] at hi
  obtain ⟨b, hb, rfl⟩ := hi
  exact ⟨i, b, hb, rfl⟩

theorem slice_dataBytes {bs : List (List TableEntry)} {i : Nat} {b : List TableEntry}
    (hb : bs[i]? = some b) (rest : Bytes) :
    slice (dataBytes bs ++ rest) (dataBytes (bs.take i)).length (sealedBlock b).length =
      sealedBlock b := by
  obtain ⟨hlt, hget⟩ := List.getElem?_eq_some_iff.mp hb
  have hsplit : dataBytes bs =
      dataBytes (bs.take i) ++ (sealedBlock b ++ dataBytes (bs.drop (i + 1))) := by
    have hcut : bs = bs.take i ++ b :: bs.drop (i + 1) := by
      rw [← hget, List.cons_getElem_drop_succ, List.take_append_drop]
    conv_lhs => rw [hcut, dataBytes_append]
    rfl
  rw [hsplit, List.append_assoc, List.append_assoc, ← List.append_assoc (dataBytes _)]
  exact slice_mid _ _ _

theorem dataBytes_take_le {bs : List (List TableEntry)} {i : Nat} {b : List TableEntry}
    (hb : bs[i]? = some b) :
    (dataBytes (bs.take i)).length + (sealedBlock b).length ≤ (dataBytes bs).length := by
  have hs := congrArg List.length (slice_dataBytes hb [])
  rw [length_slice, List.append_nil] at hs
  have hpos : 0 < (sealedBlock b).length := by
    rw [sealedBlock, length_withCrc]
    omega
  omega

/-! ### The fields of a file that fits -/

/-- The contents of a table file. -/
structure TableFile (n : FilterSize) (es : List TableEntry) : Prop where
  fits : TableFits n es
  sorted : SortedKeys es
  seqs : ∀ e ∈ es, e.seq < 2 ^ 64

namespace TableFile

variable {n : FilterSize} {es : List TableEntry}

theorem entry_fits (h : TableFile n es) : ∀ e ∈ es, e.Fits :=
  fun e he => ⟨h.fits.entries e he, h.seqs e he⟩

omit [TableHashing] in
theorem mem_of_block {b : List TableEntry} (hb : b ∈ tableBlocks es) : ∀ e ∈ b, e ∈ es := by
  intro e he
  rw [← flatten_tableBlocks es]
  exact List.mem_flatten_of_mem hb he

theorem length_dataBytes_lt (h : TableFile n es) :
    (dataBytes (tableBlocks es)).length + (indexBytes es).length < 2 ^ 64 := by
  have hblocks : ∀ bs : List (List TableEntry), (∀ b ∈ bs, (sealedBlock b).length < 2 ^ 32) →
      (dataBytes bs).length ≤ bs.length * (2 ^ 32 - 1) := by
    intro bs hbs
    induction bs with
    | nil => exact Nat.le_of_eq (Nat.zero_mul _).symm
    | cons b bs ih =>
      have hlen : (dataBytes (b :: bs)).length = (sealedBlock b).length + (dataBytes bs).length :=
        List.length_append
      have hb := hbs b List.mem_cons_self
      have := ih fun x hx => hbs x (List.mem_cons_of_mem _ hx)
      rw [hlen, List.length_cons]
      omega
  have hdata := hblocks _ h.fits.blocks
  have hcount := (length_le_index (handles 0 (tableBlocks es))).1
  have hidx := h.fits.index
  rw [length_handles] at hcount
  rw [indexBytes, length_withCrc] at hidx ⊢
  omega

theorem length_le_dataBytes (es : List TableEntry) :
    es.length ≤ (dataBytes (tableBlocks es)).length := by
  have hblock : ∀ b : List TableEntry, b.length ≤ (encodeBlock b).length := by
    intro b
    induction b with
    | nil => exact Nat.le_refl _
    | cons e b ih =>
      have hpos : 0 < e.encode.length := List.length_pos_iff.mpr (encode_ne_nil e)
      have hlen : (encodeBlock (e :: b)).length = e.encode.length + (encodeBlock b).length :=
        List.length_append
      rw [List.length_cons, hlen]
      omega
  have hall : ∀ bs : List (List TableEntry), bs.flatten.length ≤ (dataBytes bs).length := by
    intro bs
    induction bs with
    | nil => exact Nat.le_refl _
    | cons b bs ih =>
      have hlen : (dataBytes (b :: bs)).length = (sealedBlock b).length + (dataBytes bs).length :=
        List.length_append
      have := hblock b
      rw [List.flatten_cons, List.length_append, hlen, sealedBlock, length_withCrc]
      omega
  have := hall (tableBlocks es)
  rwa [flatten_tableBlocks] at this

theorem footer_fits (h : TableFile n es) : (footerOf n es).Fits := by
  have hlt := h.length_dataBytes_lt
  have hn := length_le_dataBytes es
  have hi := h.fits.index
  have hb := h.fits.bloom
  constructor <;> simp only [footerOf] <;> omega

theorem handles_fit (h : TableFile n es) : ∀ x ∈ handles 0 (tableBlocks es), x.Fits := by
  intro x hx
  obtain ⟨i, b, hb, rfl⟩ := mem_handles hx
  have hmem := List.mem_of_getElem? hb
  have hlt := h.length_dataBytes_lt
  have hle := dataBytes_take_le hb
  refine ⟨?_, by show 0 + _ < _; omega, h.fits.blocks b hmem⟩
  show (headKey b).length < 2 ^ 32
  cases b with
  | nil => exact Nat.two_pow_pos 32
  | cons e b => exact (h.fits.entries e (mem_of_block hmem e List.mem_cons_self)).1

theorem decodeIndex_eq (h : TableFile n es) :
    decodeIndex (indexBytes es) = .ok (handles 0 (tableBlocks es)) := by
  refine decodeIndex_encodeIndex (length_leBytes 4 _) ?_ h.handles_fit
  have hcount := (length_le_index (handles 0 (tableBlocks es))).1
  have hidx := h.fits.index
  rw [indexBytes, length_withCrc] at hidx
  omega

end TableFile

/-- The reader of the file with these entries. -/
def readerOf (path : Path) (n : FilterSize) (es : List TableEntry) : SsTableReader :=
  ⟨path, handles 0 (tableBlocks es), bloomOf n (es.map TableEntry.key), es.length⟩

theorem length_tableBytes (n : FilterSize) (es : List TableEntry) : (tableBytes n es).length =
    (dataBytes (tableBlocks es)).length + (indexBytes es).length + (bloomBytes n es).length +
      FOOTER_SIZE := by
  rw [tableBytes, List.length_append, List.length_append, List.length_append, length_withCrc,
    length_footer]

theorem footer_at (n : FilterSize) (es : List TableEntry) :
    slice (tableBytes n es) ((tableBytes n es).length - FOOTER_SIZE) FOOTER_SIZE =
      withCrc (footerOf n es).encode := by
  have hfooter : (withCrc (footerOf n es).encode).length = FOOTER_SIZE := by
    rw [length_withCrc, length_footer]
  rw [length_tableBytes, Nat.add_sub_cancel, ← List.length_append, ← List.length_append, tableBytes]
  conv_lhs => rw [← hfooter, ← List.append_nil (_ ++ withCrc _)]
  exact slice_mid _ _ _

theorem index_at (n : FilterSize) (es : List TableEntry) :
    slice (tableBytes n es) (footerOf n es).indexOff (footerOf n es).indexLen = indexBytes es := by
  rw [tableBytes, List.append_assoc]
  exact slice_mid _ _ _

theorem bloom_at (n : FilterSize) (es : List TableEntry) :
    slice (tableBytes n es) (footerOf n es).bloomOff (footerOf n es).bloomLen = bloomBytes n es := by
  have hoff : (footerOf n es).bloomOff = (dataBytes (tableBlocks es) ++ indexBytes es).length :=
    List.length_append.symm
  rw [hoff, tableBytes]
  exact slice_mid _ _ _

/-- Both regions end before the footer. -/
theorem regions_le (n : FilterSize) (es : List TableEntry) :
    (footerOf n es).indexOff + (footerOf n es).indexLen ≤ (tableBytes n es).length - FOOTER_SIZE ∧
    (footerOf n es).bloomOff + (footerOf n es).bloomLen ≤ (tableBytes n es).length - FOOTER_SIZE := by
  rw [length_tableBytes, Nat.add_sub_cancel]
  simp only [footerOf]
  omega

/-! ### Checked regions -/

/-- The region at `off` is as it was written, or, where `bad` allows that, it does not
match its CRC. -/
def Region (bad : Prop) (c : Bytes) (off : Nat) (body : Bytes) : Prop :=
  slice c off (withCrc body).length = withCrc body ∨
    bad ∧ ∀ what, ∃ msg, verifyCrc (slice c off (withCrc body).length) what = .error (.corrupt msg)

/-- A file as long as another one, in which every checked region of that one is as it
was or does not match its CRC. -/
structure Spoiled (bad : Prop) (c c' : Bytes) : Prop where
  length : c'.length = c.length
  region : ∀ off body, slice c off (withCrc body).length = withCrc body → Region bad c' off body

theorem Spoiled.refl (c : Bytes) : Spoiled False c c := ⟨rfl, fun _ _ h => Or.inl h⟩

namespace SsTableReader

variable {M : Type} {e : Faults} {strict H : Prop} {d : Disk} {m : M} {path : Path} {n : FilterSize}
variable {C : Disk × M → Prop} {R : SsTableError → Disk × M → Prop} {es : List TableEntry}
variable {f : Blob}

omit [TableHashing] in
theorem wpE_readExact {off len : Nat} {Q : Bytes → Disk × M → Prop} (hC : C (d, m))
    (hlive : (d path).live = some f) (hlen : off + len ≤ f.content.length)
    (hok : Q (slice f.content off len) (d, m)) (herr : e.Any → ∀ err, R err (d, m)) :
    wpE (Disk.sem e) strict H C (readExact path off len) Q R (d, m) := by
  refine wpE_bind.mpr (wpE_mapError (wpE_readAt hC hlive (by omega) ?_ fun hf msg =>
    herr (Faults.any_of_fail hf) _))
  rw [if_pos (length_slice_of_le hlen)]
  exact wpE_pure.mpr ⟨hC, hok⟩

/-- A read with the check of its CRC. -/
theorem wpE_readChecked {α : Type} {bad : Prop} {off len : Nat} {body : Bytes} {what : String}
    {k : Bytes → Io M SsTableError α} {Q : α → Disk × M → Prop} (hC : C (d, m))
    (hlive : (d path).live = some f) (hlen : (withCrc body).length = len)
    (hle : off + len ≤ f.content.length) (hr : Region bad f.content off body)
    (hok : slice f.content off len = withCrc body →
      wpE (Disk.sem e) strict H C (k (withCrc body)) Q R (d, m))
    (hbad : bad → ∀ msg, R (.corrupt msg) (d, m)) (herr : e.Any → ∀ err, R err (d, m)) :
    wpE (Disk.sem e) strict H C (do
      let buf ← readExact path off len
      Act.ofExcept (verifyCrc buf what)
      k buf) Q R (d, m) := by
  subst hlen
  refine wpE_bind.mpr (wpE_readExact hC hlive hle ?_ herr)
  refine wpE_bind.mpr (wpE_ofExcept.mpr ⟨hC, ?_⟩)
  rcases hr with hr | ⟨hb, hr⟩
  · rw [hr, verifyCrc_withCrc]
    exact hok hr
  · obtain ⟨msg, hmsg⟩ := hr what
    rw [hmsg]
    exact hbad hb msg

/-- **`open` on a file with a footer, an index and a filter in their places.** -/
theorem wpE_open_at {bad : Prop} {F : Footer} {index : List BlockHandle} {bloom : BloomFilter}
    {Q : SsTableReader → Disk × M → Prop} (hC : C (d, m)) (hlive : (d path).live = some f)
    (hlong : FOOTER_SIZE ≤ f.content.length) (hF : F.Fits)
    (hfooter : Region bad f.content (f.content.length - FOOTER_SIZE) F.encode)
    (hilen : (withCrc (encodeIndex index)).length = F.indexLen)
    (hile : F.indexOff + F.indexLen ≤ f.content.length - FOOTER_SIZE)
    (hir : Region bad f.content F.indexOff (encodeIndex index))
    (hidx : decodeIndex (withCrc (encodeIndex index)) = .ok index)
    (hblen : (withCrc bloom.encode).length = F.bloomLen)
    (hble : F.bloomOff + F.bloomLen ≤ f.content.length - FOOTER_SIZE)
    (hbr : Region bad f.content F.bloomOff bloom.encode) (hbs : bloom.Sound)
    (hok : slice f.content F.indexOff F.indexLen = withCrc (encodeIndex index) →
      Q ⟨path, index, bloom, F.numEntries⟩ (d, m))
    (hbad : bad → ∀ msg, R (.corrupt msg) (d, m)) (herr : e.Any → ∀ err, R err (d, m)) :
    wpE (Disk.sem e) strict H C (SsTableReader.open path) Q R (d, m) := by
  have hflen : (withCrc F.encode).length = FOOTER_SIZE := by rw [length_withCrc, length_footer]
  have hdec : (decodeFooter (withCrc F.encode)).map Prod.fst = .ok F := by
    rw [withCrc, reads_decodeFooter hF]
    rfl
  have hbloom : (BloomFilter.decode ((withCrc bloom.encode).take
      ((withCrc bloom.encode).length - 4))).map Prod.fst = .ok bloom := by
    rw [take_withCrc, (BloomFilter.reads_decode hbs).run]
    rfl
  refine wpE_bind.mpr (wpE_mapError (wpE_len hC (fun b hb => ?_) (fun hno => ?_) fun hfail msg =>
    herr (Faults.any_of_fail hfail) _))
  swap
  · rw [hlive] at hno
    cases hno
  rw [hlive] at hb
  obtain rfl := Option.some.inj hb
  rw [if_neg (Nat.not_lt.mpr hlong)]
  refine wpE_readChecked hC hlive hflen (Nat.le_of_eq (Nat.sub_add_cancel hlong)) hfooter
    (fun _ => ?_) hbad herr
  refine wpE_bind.mpr (wpE_ofExcept.mpr ⟨hC, ?_⟩)
  rw [hdec]
  refine wpE_bind.mpr (wpE_ofExcept.mpr ⟨hC, ?_⟩)
  rw [checkRegion_of_le hile]
  refine wpE_bind.mpr (wpE_ofExcept.mpr ⟨hC, ?_⟩)
  rw [checkRegion_of_le hble]
  refine wpE_readChecked hC hlive hilen (hile.trans (Nat.sub_le _ _)) hir (fun hi => ?_) hbad herr
  refine wpE_bind.mpr (wpE_ofExcept.mpr ⟨hC, ?_⟩)
  rw [hidx]
  refine wpE_readChecked hC hlive hblen (hble.trans (Nat.sub_le _ _)) hbr (fun _ => ?_) hbad herr
  refine wpE_bind.mpr (wpE_ofExcept.mpr ⟨hC, ?_⟩)
  rw [hbloom]
  exact wpE_pure.mpr ⟨hC, hok hi⟩

/-- A block at its place. -/
theorem wpE_loadBlock_at {bad : Prop} {r : SsTableReader} {h : BlockHandle} {b : List TableEntry}
    {Q : List TableEntry → Disk × M → Prop} (hC : C (d, m)) (hlive : (d r.path).live = some f)
    (hlen : (sealedBlock b).length = h.len) (hle : h.offset + h.len ≤ f.content.length)
    (hr : Region bad f.content h.offset (encodeBlock b)) (hfit : ∀ x ∈ b, x.Fits)
    (hok : Q b (d, m)) (hbad : bad → ∀ msg, R (.corrupt msg) (d, m))
    (herr : e.Any → ∀ err, R err (d, m)) :
    wpE (Disk.sem e) strict H C (r.loadBlock h) Q R (d, m) := by
  refine wpE_readChecked hC hlive hlen hle hr (fun _ => ?_) hbad herr
  refine wpE_ofExcept.mpr ⟨hC, ?_⟩
  rw [take_withCrc, decodeBlock_encodeBlock hfit]
  exact hok

variable {bad : Prop}

/-- **`open` finds what the builder wrote**, or that it is spoiled. -/
theorem wpE_open_spoiled {Q : SsTableReader → Disk × M → Prop} (ht : TableFile n es) (hC : C (d, m))
    (hlive : (d path).live = some f) (hf : Spoiled bad (tableBytes n es) f.content)
    (hok : Q (readerOf path n es) (d, m)) (hbad : bad → ∀ msg, R (.corrupt msg) (d, m))
    (herr : e.Any → ∀ err, R err (d, m)) :
    wpE (Disk.sem e) strict H C (SsTableReader.open path) Q R (d, m) := by
  obtain ⟨hindex, hbloom⟩ := regions_le n es
  have hlong : FOOTER_SIZE ≤ f.content.length := by
    rw [hf.length, length_tableBytes]
    exact Nat.le_add_left _ _
  have hflen : (withCrc (footerOf n es).encode).length = FOOTER_SIZE := by
    rw [length_withCrc, length_footer]
  rw [← hf.length] at hindex hbloom
  refine wpE_open_at (F := footerOf n es) hC hlive hlong ht.footer_fits (hf.region _ _ ?_) rfl hindex
    (hf.region _ _ (index_at n es)) ht.decodeIndex_eq rfl hbloom (hf.region _ _ (bloom_at n es))
    (sound_bloomOf ht.fits.bits _) (fun _ => hok) hbad herr
  rw [hflen, hf.length]
  exact footer_at n es

theorem wpE_loadBlock_spoiled {Q : List TableEntry → Disk × M → Prop} {i : Nat}
    {b : List TableEntry} (ht : TableFile n es) (hC : C (d, m)) (hlive : (d path).live = some f)
    (hf : Spoiled bad (tableBytes n es) f.content) (hb : (tableBlocks es)[i]? = some b)
    (hok : Q b (d, m)) (hbad : bad → ∀ msg, R (.corrupt msg) (d, m))
    (herr : e.Any → ∀ err, R err (d, m)) :
    wpE (Disk.sem e) strict H C ((readerOf path n es).loadBlock
      ⟨headKey b, 0 + (dataBytes ((tableBlocks es).take i)).length, (sealedBlock b).length⟩)
      Q R (d, m) := by
  have hle := dataBytes_take_le hb
  have hlen := length_tableBytes n es
  rw [Nat.zero_add]
  refine wpE_loadBlock_at hC hlive rfl ?_ (hf.region _ _ ?_) (fun x hx => ht.entry_fits x
    (TableFile.mem_of_block (List.mem_of_getElem? hb) x hx)) hok hbad herr
  · rw [hf.length]
    show (dataBytes _).length + (sealedBlock b).length ≤ _
    omega
  · rw [tableBytes, List.append_assoc, List.append_assoc]
    exact slice_dataBytes hb _

/-- **`get` finds the entry of the key**, if the table has one, or a spoiled block. -/
theorem wpE_get_spoiled {Q : Option TableEntry → Disk × M → Prop} {key : Bytes}
    (ht : TableFile n es) (hC : C (d, m)) (hlive : (d path).live = some f)
    (hf : Spoiled bad (tableBytes n es) f.content) (hok : Q (searchBlock es key) (d, m))
    (hbad : bad → ∀ msg, R (.corrupt msg) (d, m)) (herr : e.Any → ∀ err, R err (d, m)) :
    wpE (Disk.sem e) strict H C ((readerOf path n es).get key) Q R (d, m) := by
  have hflat := flatten_tableBlocks es
  have hkeys : ∀ x ∈ es, x.key ∈ es.map TableEntry.key := fun x hx => List.mem_map_of_mem hx
  have hbloom := contains_bloomOf ht.fits.bits (es.map TableEntry.key)
  have hreader : (readerOf path n es).bloom = bloomOf n (es.map TableEntry.key) := rfl
  have hindex : (readerOf path n es).index = handles 0 (tableBlocks es) := rfl
  unfold SsTableReader.get
  rw [hreader]
  by_cases hc : (bloomOf n (es.map TableEntry.key)).contains key = true
  · rw [if_pos hc]
    cases hbs : tableBlocks es with
    | nil =>
      have hnil : es = [] := by rw [← hflat, hbs, List.flatten_nil]
      have hfind : (readerOf path n es).findBlock key = none := by
        rw [findBlock, hindex, hbs, handles]
      rw [hfind]
      rw [hnil] at hok
      exact wpE_pure.mpr ⟨hC, hok⟩
    | cons b rest =>
      have hsort : SortedKeys (b :: rest).flatten := by
        rw [← hbs, hflat]
        exact ht.sorted
      have hfind : (readerOf path n es).findBlock key =
          if key < headKey b then none
          else some ((((b :: rest).takeWhile fun c => decide (headKey c ≤ key))).length - 1) := by
        rw [findBlock, hindex, hbs, ← takeWhile_handles 0]
        rfl
      rw [hfind]
      by_cases hlt : key < headKey b
      · rw [if_pos hlt]
        have hnone : searchBlock es key = none := by
          refine searchBlock_eq_none.mpr fun x hx => ?_
          rw [← hflat, hbs] at hx
          have hne : b ≠ [] := ne_nil_of_mem_done es b (by
            show b ∈ tableBlocks es
            rw [hbs]
            exact List.mem_cons_self)
          obtain ⟨y, ys, rfl⟩ := List.exists_cons_of_ne_nil hne
          rw [List.flatten_cons, List.cons_append] at hx hsort
          exact (lt_of_lt_of_le hlt (headKey_le hsort x hx)).ne'
        rw [hnone] at hok
        exact wpE_pure.mpr ⟨hC, hok⟩
      · rw [if_neg hlt]
        obtain ⟨c, hci, hsearch⟩ := search_flatten key rest b hsort
          (fun x hx => ne_nil_of_mem_done es x (by
            show x ∈ tableBlocks es
            rw [hbs]
            exact hx)) (le_of_not_gt hlt)
        rw [← hbs] at hci
        rw [← hbs, hflat] at hsearch
        rw [← hbs]
        dsimp only
        rw [hindex, handles_getElem?, hci]
        refine wpE_bind.mpr (wpE_loadBlock_spoiled ht hC hlive hf hci ?_ hbad herr)
        rw [hsearch] at hok
        exact wpE_pure.mpr ⟨hC, hok⟩
  · rw [if_neg hc]
    have hnone : searchBlock es key = none :=
      searchBlock_eq_none.mpr fun x hx hk => hc (hk ▸ hbloom _ (hkeys x hx))
    rw [hnone] at hok
    exact wpE_pure.mpr ⟨hC, hok⟩

theorem wpE_iterFrom_spoiled (ht : TableFile n es) (hC : C (d, m)) (hlive : (d path).live = some f)
    (hf : Spoiled bad (tableBytes n es) f.content) :
    ∀ (rest : List (List TableEntry)) (i : Nat), (tableBlocks es).drop i = rest →
      ∀ {Q : List (Except SsTableError TableEntry) → Disk × M → Prop},
      Q (rest.flatten.map .ok) (d, m) →
      (bad → ∀ k msg, Q ((rest.flatten.take k).map .ok ++ [.error (.corrupt msg)]) (d, m)) →
      (e.Any → ∀ items err, .error err ∈ items → Q items (d, m)) →
      wpE (Disk.sem e) strict H C ((readerOf path n es).iterFrom
        (handles (dataBytes ((tableBlocks es).take i)).length rest)) Q R (d, m) := by
  intro rest
  induction rest with
  | nil => exact fun _ _ _ hok _ _ => wpE_pure.mpr ⟨hC, hok⟩
  | cons b rest ih =>
    intro i hi Q hok hbad herr
    have hb : (tableBlocks es)[i]? = some b := by
      rw [← List.head?_drop, hi]
      rfl
    have hnext : (tableBlocks es).drop (i + 1) = rest := by
      rw [← List.tail_drop, hi]
      rfl
    have htake : (tableBlocks es).take (i + 1) = (tableBlocks es).take i ++ [b] := by
      rw [List.take_add_one, hb]
      rfl
    have hoff : (dataBytes ((tableBlocks es).take (i + 1))).length =
        (dataBytes ((tableBlocks es).take i)).length + (sealedBlock b).length := by
      rw [htake, dataBytes_append, List.length_append]
      simp only [dataBytes, List.flatMap_cons, List.flatMap_nil, List.append_nil]
    rw [handles, SsTableReader.iterFrom, ← Nat.zero_add (dataBytes _).length]
    refine wpE_bind.mpr (wpE_attempt (wpE_loadBlock_spoiled ht hC hlive hf hb ?_
      (fun hb msg => ?_) fun ha err => ?_))
    · rw [Nat.zero_add, ← hoff]
      refine wpE_bind.mpr (ih (i + 1) hnext ?_ (fun hb k msg => ?_) fun ha items err hmem => ?_)
      · refine wpE_pure.mpr ⟨hC, ?_⟩
        rw [List.flatten_cons, List.map_append] at hok
        exact hok
      · refine wpE_pure.mpr ⟨hC, ?_⟩
        have hk := hbad hb (b.length + k) msg
        rw [List.flatten_cons, List.take_length_add_append, List.map_append,
          List.append_assoc] at hk
        exact hk
      · exact wpE_pure.mpr ⟨hC, herr ha _ err (List.mem_append_right _ hmem)⟩
    · exact wpE_pure.mpr ⟨hC, hbad hb 0 msg⟩
    · exact wpE_pure.mpr ⟨hC, herr ha _ err List.mem_cons_self⟩

/-- **`iter` yields the entries in order**, or the first of them and an error. -/
theorem wpE_iter_spoiled {Q : List (Except SsTableError TableEntry) → Disk × M → Prop}
    (ht : TableFile n es) (hC : C (d, m)) (hlive : (d path).live = some f)
    (hf : Spoiled bad (tableBytes n es) f.content) (hok : Q (es.map .ok) (d, m))
    (hbad : bad → ∀ k msg, Q ((es.take k).map .ok ++ [.error (.corrupt msg)]) (d, m))
    (herr : e.Any → ∀ items err, .error err ∈ items → Q items (d, m)) :
    wpE (Disk.sem e) strict H C (readerOf path n es).iter Q R (d, m) := by
  rw [← flatten_tableBlocks es] at hok hbad
  exact wpE_iterFrom_spoiled ht hC hlive hf (tableBlocks es) 0 rfl hok hbad herr

/-! ### Files as they were written -/

theorem wpE_open {Q : SsTableReader → Disk × M → Prop} (ht : TableFile n es) (hC : C (d, m))
    (hlive : (d path).live = some f) (hf : f.content = tableBytes n es)
    (hok : Q (readerOf path n es) (d, m)) (herr : e.Any → ∀ err, R err (d, m)) :
    wpE (Disk.sem e) strict H C (SsTableReader.open path) Q R (d, m) :=
  wpE_open_spoiled ht hC hlive (hf ▸ Spoiled.refl _) hok False.elim herr

theorem wpE_get {Q : Option TableEntry → Disk × M → Prop} {key : Bytes}
    (ht : TableFile n es) (hC : C (d, m)) (hlive : (d path).live = some f)
    (hf : f.content = tableBytes n es) (hok : Q (searchBlock es key) (d, m))
    (herr : e.Any → ∀ err, R err (d, m)) :
    wpE (Disk.sem e) strict H C ((readerOf path n es).get key) Q R (d, m) :=
  wpE_get_spoiled ht hC hlive (hf ▸ Spoiled.refl _) hok False.elim herr

/-- **`iter` yields the entries in order**, or an error among them. -/
theorem wpE_iter {Q : List (Except SsTableError TableEntry) → Disk × M → Prop}
    (ht : TableFile n es) (hC : C (d, m)) (hlive : (d path).live = some f)
    (hf : f.content = tableBytes n es) (hok : Q (es.map .ok) (d, m))
    (herr : e.Any → ∀ items err, .error err ∈ items → Q items (d, m)) :
    wpE (Disk.sem e) strict H C (readerOf path n es).iter Q R (d, m) :=
  wpE_iter_spoiled ht hC hlive (hf ▸ Spoiled.refl _) hok False.elim herr

end SsTableReader

end AccretionDb
