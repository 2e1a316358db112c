import AccretionDb.Lib.Ascending

/-! # The memtable

A sorted table of versioned values that counts its bytes, and the set of one active
and some frozen tables.  Every method of the set runs under its lock, so it is one
function of the state.  An `Arc` is its value with an address, by which
`discard_frozen` tells tables apart.
-/

namespace AccretionDb

open CrashLogic

/-! ### Versioned values -/

/-- A live value or a deletion marker. -/
inductive ValueKind
  | value (bytes : Bytes)
  | tombstone
  deriving DecidableEq

/-- A value with the sequence number of the write that produced it. -/
structure InternalValue where
  seq : Nat
  kind : ValueKind
  deriving DecidableEq

namespace InternalValue

def isTombstone (v : InternalValue) : Bool :=
  match v.kind with
  | .tombstone => true
  | .value _ => false

def asValue (v : InternalValue) : Option Bytes :=
  match v.kind with
  | .value bytes => some bytes
  | .tombstone => none

def payloadBytes (v : InternalValue) : Nat :=
  match v.kind with
  | .value bytes => bytes.length
  | .tombstone => 0

instance : Stamped InternalValue Bytes where
  stamp := seq
  payload := asValue

theorem isTombstone_eq (v : InternalValue) : v.isTombstone = v.asValue.isNone := by
  obtain ⟨seq, kind⟩ := v
  cases kind <;> rfl

end InternalValue

/-- One key with the version that wins for it in one source. -/
abbrev Entry := Bytes × InternalValue

abbrev Versions := Layer Bytes InternalValue

/-! ### Ranges of keys -/

inductive Bound
  | included (key : Bytes)
  | excluded (key : Bytes)
  | unbounded
  deriving DecidableEq

structure KeyRange where
  start : Bound
  stop : Bound
  deriving DecidableEq

/-- `..` -/
def KeyRange.full : KeyRange := ⟨.unbounded, .unbounded⟩

/-- The range contains the key. -/
def rangeContains (range : KeyRange) (key : Bytes) : Bool :=
  let afterStart := match range.start with
    | .unbounded => true
    | .included s => decide (s ≤ key)
    | .excluded s => decide (s < key)
  let beforeEnd := match range.stop with
    | .unbounded => true
    | .included e => decide (key ≤ e)
    | .excluded e => decide (key < e)
  afterStart && beforeEnd

/-- The ranges on which `BTreeMap::range` panics: the start behind the end, or both
at one excluded key. -/
def KeyRange.panics (range : KeyRange) : Bool :=
  match range.start, range.stop with
  | .included s, .included e | .included s, .excluded e | .excluded s, .included e => decide (e < s)
  | .excluded s, .excluded e => decide (e ≤ s)
  | _, _ => false

@[simp] theorem rangeContains_full (key : Bytes) : rangeContains .full key = true := rfl

/-! ### One table -/

def ENTRY_OVERHEAD : Nat := 32

/-- What an entry is charged. -/
def entryBytes (key : Bytes) (val : InternalValue) : Nat :=
  key.length + val.payloadBytes + ENTRY_OVERHEAD

abbrev SortedTable := Std.TreeMap Bytes InternalValue

/-- What the entries of a table are charged together. -/
def chargedBytes (map : SortedTable) : Nat := (map.toList.map fun e => entryBytes e.1 e.2).sum

/-- A table that counts its bytes right. -/
structure Memtable where
  map : SortedTable
  approxBytes : Nat
  exact : approxBytes = chargedBytes map

theorem sum_filter_add {α : Type} (f : α → Nat) (p : α → Bool) (l : List α) :
    ((l.filter p).map f).sum + ((l.filter fun a => !p a).map f).sum = (l.map f).sum := by
  induction l with
  | nil => rfl
  | cons a l ih =>
    by_cases h : p a = true
    · simp only [List.filter_cons, h, if_true, Bool.not_true, Bool.false_eq_true, if_false,
        List.map_cons, List.sum_cons]
      omega
    · simp only [List.filter_cons, h, if_false, Bool.not_false, if_true, List.map_cons,
        List.sum_cons, Bool.false_eq_true]
      omega

theorem ascending_toList (map : SortedTable) : Ascending map.toList :=
  map.ordered_keys_toList.imp fun h => (compare_eq_lt_iff _ _).mp h

theorem layerOf_toList (map : SortedTable) (key : Bytes) : layerOf map.toList key = map[key]? := by
  cases h : map[key]? with
  | some v =>
    rw [(ascending_toList map).layerOf_eq_some]
    exact Std.TreeMap.mem_toList_iff_getElem?_eq_some.mpr h
  | none =>
    refine layerOf_eq_none.mpr fun e he hk => ?_
    obtain ⟨k, v⟩ := e
    change k = key at hk
    subst hk
    rw [Std.TreeMap.mem_toList_iff_getElem?_eq_some.mp he] at h
    cases h

/-- What the entries of the other keys are charged. -/
def chargedOthers (map : SortedTable) (key : Bytes) : Nat :=
  ((map.toList.filter fun e => !decide (key = e.1)).map fun e => entryBytes e.1 e.2).sum

theorem chargedBytes_split (map : SortedTable) (key : Bytes) :
    chargedBytes map = (map[key]?.map (entryBytes key)).getD 0 + chargedOthers map key := by
  have hsum := sum_filter_add (fun e : Bytes × InternalValue => entryBytes e.1 e.2)
    (fun e => decide (key = e.1)) map.toList
  rw [(ascending_toList map).filter_key, layerOf_toList] at hsum
  rw [chargedBytes, ← hsum, chargedOthers]
  cases map[key]? with
  | none => rfl
  | some v => rfl

/-- **Inserting charges the new entry and gives back the one it replaces.** -/
theorem chargedBytes_insert (map : SortedTable) (key : Bytes) (val : InternalValue) :
    chargedBytes (map.insert key val) = entryBytes key val + chargedOthers map key := by
  have hperm := (Std.TreeMap.toList_insert_perm (t := map) (k := key) (v := val)).map
    fun e => entryBytes e.1 e.2
  have hnew : (map.toList.filter fun e => decide ¬(key == e.1) = true) =
      map.toList.filter fun e => !decide (key = e.1) := by
    refine List.filter_congr fun e _ => ?_
    by_cases he : key = e.1 <;> simp [he]
  rw [chargedBytes, hperm.sum_nat, hnew, List.map_cons, List.sum_cons, chargedOthers]

namespace Memtable

def new : Memtable := ⟨∅, 0, rfl⟩

/-- Insert or overwrite. -/
def insert (key : Bytes) (val : InternalValue) (t : Memtable) : Memtable where
  map := t.map.insert key val
  approxBytes :=
    let incoming := entryBytes key val
    match t.map[key]? with
    | some prev => t.approxBytes - entryBytes key prev + incoming
    | none => t.approxBytes + incoming
  exact := by
    have h := chargedBytes_insert t.map key val
    have ht := t.exact
    rw [chargedBytes_split t.map key] at ht
    cases hprev : t.map[key]? with
    | some prev =>
      rw [hprev, Option.map_some, Option.getD_some] at ht
      show t.approxBytes - entryBytes key prev + entryBytes key val = _
      omega
    | none =>
      rw [hprev, Option.map_none, Option.getD_none] at ht
      show t.approxBytes + entryBytes key val = _
      omega

/-- Insert unless the table has a version as new. -/
def insertIfNewer (key : Bytes) (val : InternalValue) (t : Memtable) : Memtable :=
  match t.map[key]? with
  | some prev => if prev.seq ≥ val.seq then t else t.insert key val
  | none => t.insert key val

def get (key : Bytes) (t : Memtable) : Option InternalValue := t.map[key]?

/-- All entries in key order. -/
def snapshot (t : Memtable) : List Entry := t.map.toList

/-- The entries of a range; `none` where `BTreeMap::range` panics. -/
def rangeSnapshot (range : KeyRange) (t : Memtable) : Option (List Entry) :=
  if range.panics then none else some (t.snapshot.filter fun e => rangeContains range e.1)

/-- What the table holds. -/
def versions (t : Memtable) : Versions := fun key => t.get key

theorem ascending_snapshot (t : Memtable) : Ascending t.snapshot := ascending_toList t.map

@[simp] theorem layerOf_snapshot (t : Memtable) (key : Bytes) :
    layerOf t.snapshot key = t.versions key := layerOf_toList t.map key

@[simp] theorem versions_new (key : Bytes) : new.versions key = none := rfl

theorem versions_insert (key : Bytes) (val : InternalValue) (t : Memtable) :
    (t.insert key val).versions = Function.update t.versions key (some val) := by
  funext k
  show (t.map.insert key val)[k]? = _
  rw [Std.TreeMap.getElem?_insert]
  by_cases hk : k = key
  · rw [hk, Function.update_self, if_pos Std.ReflCmp.compare_self]
  · rw [Function.update_of_ne hk, if_neg fun h => hk (Std.LawfulEqCmp.eq_of_compare h).symm]
    rfl

/-- What a table holds under a key is part of its count. -/
theorem entryBytes_le {t : Memtable} {key : Bytes} {prev : InternalValue}
    (h : t.get key = some prev) : entryBytes key prev ≤ t.approxBytes := by
  have hprev : t.map[key]? = some prev := h
  rw [t.exact, chargedBytes_split t.map key, hprev]
  exact Nat.le_add_right ..

/-- **A table is charged nothing exactly when it is empty.** -/
theorem approxBytes_eq_zero (t : Memtable) :
    t.approxBytes = 0 ↔ ∀ key, t.versions key = none := by
  rw [t.exact, chargedBytes, List.sum_eq_zero_iff_forall_eq_nat]
  constructor
  · intro h key
    cases hv : t.versions key with
    | none => rfl
    | some v =>
      have hm : (key, v) ∈ t.map.toList := Std.TreeMap.mem_toList_iff_getElem?_eq_some.mpr hv
      have := h _ (List.mem_map.mpr ⟨_, hm, rfl⟩)
      simp only [entryBytes, ENTRY_OVERHEAD] at this
      omega
  · intro h n hn
    obtain ⟨⟨k, v⟩, he, rfl⟩ := List.mem_map.mp hn
    have hv : t.versions k = some v := Std.TreeMap.mem_toList_iff_getElem?_eq_some.mp he
    rw [h k] at hv
    cases hv

/-- A value later than what the table holds goes in. -/
theorem versions_insertIfNewer {key : Bytes} {val : InternalValue} {t : Memtable}
    (h : ∀ prev, t.versions key = some prev → prev.seq < val.seq) :
    (t.insertIfNewer key val).versions = Function.update t.versions key (some val) := by
  unfold insertIfNewer
  cases hprev : t.map[key]? with
  | none => exact versions_insert key val t
  | some prev =>
    have hlt := h prev hprev
    show (if prev.seq ≥ val.seq then t else t.insert key val).versions = _
    rw [if_neg (by omega)]
    exact versions_insert key val t

/-- A value no later than what the table holds is dropped. -/
theorem insertIfNewer_of_le {key : Bytes} {val prev : InternalValue} {t : Memtable}
    (h : t.versions key = some prev) (hle : val.seq ≤ prev.seq) : t.insertIfNewer key val = t := by
  have hprev : t.map[key]? = some prev := h
  rw [insertIfNewer, hprev]
  exact if_pos hle

theorem replays_insertIfNewer {t : Memtable} {W : History Bytes InternalValue}
    (h : Replays t.versions W) {k : Bytes} {v : InternalValue} (hco : Coherent (W.add k v)) :
    Replays (t.insertIfNewer k v).versions (W.add k v) := by
  by_cases hle : ∃ prev, t.versions k = some prev ∧ v.seq ≤ prev.seq
  · obtain ⟨prev, hprev, hle⟩ := hle
    rw [insertIfNewer_of_le hprev hle]
    exact h.keep hco hprev hle
  · have hlt : ∀ prev, t.versions k = some prev → prev.seq < v.seq := fun prev hprev =>
      Nat.lt_of_not_le fun hle' => hle ⟨prev, hprev, hle'⟩
    rw [versions_insertIfNewer hlt]
    exact h.insert hlt

/-- **Replaying records one by one keeps the newest of each key**, whatever their
order, if no two of a key have one sequence number. -/
theorem replays_foldl {es : List Entry} :
    ∀ {t : Memtable} {W : History Bytes InternalValue}, Replays t.versions W →
      Coherent (W ⊔ History.ofList es) →
      Replays (es.foldl (fun t e => t.insertIfNewer e.1 e.2) t).versions
        (W ⊔ History.ofList es) := by
  induction es with
  | nil =>
    intro t W h _
    rw [History.sup_ofList_nil]
    exact h
  | cons e es ih =>
    intro t W h hco
    rw [History.sup_ofList_cons] at hco ⊢
    rw [List.foldl_cons]
    exact ih (replays_insertIfNewer h (hco.mono fun k v h => Or.inl h)) hco

/-- Into a new table. -/
theorem replays_new {es : List Entry} (h : Coherent (History.ofList es)) :
    Replays (es.foldl (fun t e => t.insertIfNewer e.1 e.2) new).versions (History.ofList es) := by
  have hnew : Replays new.versions (⊥ : History Bytes InternalValue) :=
    ⟨fun k v hv => absurd (versions_new k ▸ hv) (Option.some_ne_none v).symm, fun _ _ _ hf => hf⟩
  have hfold := @replays_foldl es _ _ hnew
  rw [bot_sup_eq] at hfold
  exact hfold h

end Memtable

/-! ### The set of tables -/

/-- A shared value; the address tells it from others of the same content. -/
structure Arc (α : Type) where
  addr : Nat
  val : α

structure MemtableSet where
  active : Memtable
  /-- Frozen tables awaiting flush, oldest first. -/
  frozen : List (Arc Memtable)
  maxBytes : Nat
  /-- No table has this address yet, nor a later one. -/
  nextAddr : Nat
  sorted : frozen.Pairwise (·.addr < ·.addr)
  fresh : ∀ t ∈ frozen, t.addr < nextAddr

namespace MemtableSet

def new (maxBytes : Nat) : MemtableSet := ⟨.new, [], maxBytes, 0, .nil, nofun⟩

def insertIfNewer (key : Bytes) (val : InternalValue) (s : MemtableSet) : MemtableSet :=
  { s with active := s.active.insertIfNewer key val }

/-- The version of the active table, or of the newest frozen one that has any. -/
def get (key : Bytes) (s : MemtableSet) : Option InternalValue :=
  match s.active.get key with
  | some v => some v
  | none => s.frozen.reverse.findSome? fun t => t.val.get key

def activeBytes (s : MemtableSet) : Nat := s.active.approxBytes

def isFull (s : MemtableSet) : Bool := decide (s.activeBytes ≥ s.maxBytes)

/-- Move the active table to the frozen ones, and start a new one. -/
def freeze (s : MemtableSet) : MemtableSet where
  active := .new
  frozen := s.frozen ++ [⟨s.nextAddr, s.active⟩]
  maxBytes := s.maxBytes
  nextAddr := s.nextAddr + 1
  sorted := by
    refine List.pairwise_append.mpr ⟨s.sorted, List.pairwise_singleton _ _, fun a ha b hb => ?_⟩
    obtain rfl := List.mem_singleton.mp hb
    exact s.fresh a ha
  fresh := by
    intro t ht
    rcases List.mem_append.mp ht with ht | ht
    · exact Nat.lt_succ_of_lt (s.fresh t ht)
    · obtain rfl := List.mem_singleton.mp ht
      exact Nat.lt_succ_self _

/-- Remove a table, by its address. -/
def discardFrozen (table : Arc Memtable) (s : MemtableSet) : MemtableSet where
  active := s.active
  frozen := s.frozen.filter fun t => t.addr != table.addr
  maxBytes := s.maxBytes
  nextAddr := s.nextAddr
  sorted := s.sorted.filter _
  fresh t ht := s.fresh t (List.mem_filter.mp ht).1

/-- One source for every table, cut to the range. -/
def scanIters (range : KeyRange) (s : MemtableSet) : Option (List (List Entry)) := do
  let active ← s.active.rangeSnapshot range
  let frozen ← s.frozen.mapM fun t => t.val.rangeSnapshot range
  pure (active :: frozen)

/-- Without frozen tables the active one is all there is. -/
theorem get_of_frozen_nil {s : MemtableSet} (h : s.frozen = []) (key : Bytes) :
    s.get key = s.active.versions key := by
  rw [get, h]
  show (match s.active.get key with | some v => some v | none => none) = s.active.get key
  cases s.active.get key <;> rfl

/-- The memory gives one source for each of its tables, if the range is not inverted. -/
theorem scanIters_eq {range : KeyRange} (h : range.panics = false) (s : MemtableSet) :
    s.scanIters range = some ((s.active :: s.frozen.map Arc.val).map fun t =>
      t.snapshot.filter fun e => rangeContains range e.1) := by
  have hone : ∀ t : Memtable, t.rangeSnapshot range =
      some (t.snapshot.filter fun e => rangeContains range e.1) := fun t =>
    if_neg (by rw [h]; exact Bool.false_ne_true)
  have hall : ∀ ts : List (Arc Memtable), ts.mapM (fun t => t.val.rangeSnapshot range) =
      some ((ts.map Arc.val).map fun t => t.snapshot.filter fun e => rangeContains range e.1) := by
    intro ts
    induction ts with
    | nil => rfl
    | cons t ts ih =>
      rw [List.mapM_cons, hone, ih]
      rfl
  rw [MemtableSet.scanIters, hone, hall]
  rfl

/-- The tables as layers, newest first. -/
def layers (s : MemtableSet) : List Versions :=
  s.active.versions :: (s.frozen.map fun t => t.val.versions).reverse

theorem lookup_reverse_frozen (ts : List (Arc Memtable)) (key : Bytes) :
    lookup (ts.map fun t => t.val.versions) key = ts.findSome? fun t => t.val.get key := by
  induction ts with
  | nil => rfl
  | cons t ts ih =>
    rw [List.map_cons, lookup_cons, List.findSome?_cons, ih]
    show (t.val.get key).or _ = _
    cases t.val.get key <;> rfl

/-- **`get` walks down the layers.** -/
theorem get_eq (s : MemtableSet) (key : Bytes) : s.get key = lookup s.layers key := by
  rw [layers, ← List.map_reverse, lookup_cons, lookup_reverse_frozen, get]
  show _ = (s.active.get key).or _
  cases s.active.get key <;> rfl

@[simp] theorem layers_new (n : Nat) : (new n).layers = [Memtable.new.versions] := rfl

theorem layers_freeze (s : MemtableSet) : s.freeze.layers = Memtable.new.versions :: s.layers := by
  simp only [layers, freeze, List.map_append, List.map_cons, List.map_nil, List.reverse_append,
    List.reverse_cons, List.reverse_nil, List.nil_append, List.singleton_append]

/-- The oldest frozen table is the lowest layer. -/
theorem layers_cons {s : MemtableSet} {t : Arc Memtable} {ts : List (Arc Memtable)}
    (h : s.frozen = t :: ts) :
    s.layers = (s.active.versions :: (ts.map fun t => t.val.versions).reverse) ++
      [t.val.versions] := by
  rw [layers, h, List.map_cons, List.reverse_cons, List.cons_append]

/-- Discarding the oldest frozen table takes the lowest layer away. -/
theorem frozen_discard {s : MemtableSet} {t : Arc Memtable} {ts : List (Arc Memtable)}
    (h : s.frozen = t :: ts) : (s.discardFrozen t).frozen = ts := by
  have hs := s.sorted
  rw [h] at hs
  obtain ⟨hlt, _⟩ := List.pairwise_cons.mp hs
  show s.frozen.filter _ = ts
  rw [h, List.filter_cons, if_neg (by simp)]
  refine List.filter_eq_self.mpr fun u hu => ?_
  have := hlt u hu
  simp only [bne_iff_ne, ne_eq]
  omega

theorem layers_discard {s : MemtableSet} {t : Arc Memtable} {ts : List (Arc Memtable)}
    (h : s.frozen = t :: ts) : (s.discardFrozen t).layers =
      s.active.versions :: (ts.map fun t => t.val.versions).reverse := by
  rw [layers, frozen_discard h]
  rfl

theorem layers_insertIfNewer {key : Bytes} {val : InternalValue} {s : MemtableSet}
    (h : ∀ prev, s.active.versions key = some prev → prev.seq < val.seq) :
    (s.insertIfNewer key val).layers = Function.update s.active.versions key (some val) ::
      (s.frozen.map fun t => t.val.versions).reverse := by
  rw [← Memtable.versions_insertIfNewer h]
  rfl

end MemtableSet

end AccretionDb
