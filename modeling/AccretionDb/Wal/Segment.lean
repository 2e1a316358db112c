import AccretionDb.Storage.Rules
import Mathlib.Data.List.Sort
import Mathlib.Data.List.Dedup

/-! # WAL segment files

Naming, listing and reading segments.  `parse::<u64>` takes a leading `+`, so an id
has two spellings of twenty characters, and a listing yields both (`Segments`,
`wpE_listSegments`).  The log itself gives only one of them: where nobody else puts
files into the directory, the ids that are there, in ascending order, say it all
(`SegIds`).
-/

namespace AccretionDb.Wal

open CrashLogic

def segmentPath (dir : Dir) (id : Nat) : Path := ⟨dir, .wal id⟩

/-- The other file of twenty characters whose name is taken for the segment `id`. -/
def signedPath (dir : Dir) (id : Nat) : Path := ⟨dir, .signedWal id⟩

/-- A name has room for ids that are no `u64`; `parse::<u64>` turns them down. -/
def parseSegmentId (path : Path) : Option Nat :=
  match path.name with
  | .wal id => if id < 2 ^ 64 then some id else none
  | .signedWal id => if id < 10 ^ 19 then some id else none
  | _ => none

/-- Segments are sorted by id.  Two files of one id stay as the directory lists them, the
one with the sign first. -/
def segmentKey (x : Nat × Path) : Nat :=
  2 * x.1 + if x.2.name = .signedWal x.1 then 0 else 1

section Programs

variable {M : Type}

/-- Every segment of the directory with its path, by ascending id. -/
def listSegments (dir : Dir) : Io M StorageError (List (Nat × Path)) := do
  let ps ← storage (.list dir)
  pure ((ps.filterMap fun p => (parseSegmentId p).map fun id => (id, p)).insertionSort
    fun a b => segmentKey a ≤ segmentKey b)

structure Segment where
  id : Nat
  path : Path
  writeOffset : Nat

def Segment.create (dir : Dir) (id : Nat) : Io M StorageError Segment := do
  let path := segmentPath dir id
  storage (.create path)
  pure ⟨id, path, 0⟩

def Segment.open (dir : Dir) (id : Nat) : Io M StorageError Segment := do
  let path := segmentPath dir id
  let writeOffset ← storage (.len path)
  pure ⟨id, path, writeOffset⟩

/-- The `debug_assert` on the offset is not part of the release build. -/
def Segment.append (bytes : Bytes) : Io Segment StorageError Unit := do
  let self ← Act.get
  let _at ← storage (.append self.path bytes)
  Act.modify fun self => { self with writeOffset := self.writeOffset + bytes.length }

def Segment.sync : Io Segment StorageError Unit := do
  let self ← Act.get
  storage (.syncFile self.path)

/-- `while read < len`: every round reads at least one byte, so `len` rounds are
enough. -/
def readLoop (path : Path) (len : Nat) : Nat → Bytes → Io M StorageError Bytes
  | 0, buf => pure buf
  | rounds + 1, buf =>
    if buf.length < len then do
      let chunk ← storage (.readAt path buf.length (len - buf.length))
      if chunk.length = 0 then pure buf else readLoop path len rounds (buf ++ chunk)
    else pure buf

/-- Read an entire segment file. -/
def readAll (path : Path) : Io M StorageError Bytes := do
  match ← Act.attempt (storage (.len path)) with
  | .ok len => readLoop path len len []
  | .error (.notFound _) => pure []
  | .error err => throw err

end Programs

/-! ### Names -/

/-- The name of a segment file: its id, and whether it is written with a sign. -/
structure SegName where
  id : Nat
  signed : Bool
  deriving DecidableEq

namespace SegName

/-- The name that the log gives. -/
def plain (id : Nat) : SegName := ⟨id, false⟩

def file : SegName → FileName
  | ⟨id, false⟩ => .wal id
  | ⟨id, true⟩ => .signedWal id

def path (dir : Dir) (n : SegName) : Path := ⟨dir, n.file⟩

/-- The id is one that is read back. -/
def Fits (n : SegName) : Prop := n.id < if n.signed then 10 ^ 19 else 2 ^ 64

theorem Fits.plain {n : SegName} (h : n.Fits) : (SegName.plain n.id).Fits := by
  obtain ⟨id, _ | _⟩ := n
  · exact h
  · exact Nat.lt_trans (show id < 10 ^ 19 from h) (show 10 ^ 19 < 2 ^ 64 by decide)

/-- The place among the segments. -/
def key (n : SegName) : Nat := 2 * n.id + if n.signed then 0 else 1

theorem path_inj {dir : Dir} {m n : SegName} (h : m.path dir = n.path dir) : m = n := by
  obtain ⟨i, _ | _⟩ := m <;> obtain ⟨j, _ | _⟩ := n <;> cases h <;> rfl

theorem path_ne {dir : Dir} {m n : SegName} (h : m ≠ n) : m.path dir ≠ n.path dir :=
  fun he => h (path_inj he)

theorem plain_ne {i j : Nat} (h : i ≠ j) : plain i ≠ plain j := fun he => h (congrArg id he)

theorem key_inj {m n : SegName} (h : m.key = n.key) : m = n := by
  obtain ⟨i, _ | _⟩ := m <;> obtain ⟨j, _ | _⟩ := n <;> simp [key] at h ⊢ <;> omega

theorem key_plain (id : Nat) : (plain id).key = 2 * id + 1 := rfl

theorem key_signed (id : Nat) : key ⟨id, true⟩ = 2 * id := rfl

theorem segmentKey_eq (dir : Dir) (n : SegName) : segmentKey (n.id, n.path dir) = n.key := by
  obtain ⟨id, _ | _⟩ := n <;> simp [segmentKey, path, file, key]

/-- The name of a segment, if the file is one. -/
def ofPath (p : Path) : Option SegName :=
  match p.name with
  | .wal id => if id < 2 ^ 64 then some ⟨id, false⟩ else none
  | .signedWal id => if id < 10 ^ 19 then some ⟨id, true⟩ else none
  | _ => none

theorem ofPath_iff {p : Path} {n : SegName} :
    ofPath p = some n ↔ n.Fits ∧ p = n.path p.dir := by
  obtain ⟨dir, name⟩ := p
  obtain ⟨id, _ | _⟩ := n <;> cases name <;> simp [ofPath, Fits, path, file] <;> omega

/-- **Which files are segments.** -/
theorem parseSegmentId_eq (p : Path) : parseSegmentId p = (ofPath p).map SegName.id := by
  obtain ⟨dir, name⟩ := p
  cases name <;> simp only [parseSegmentId, ofPath] <;> first | rfl | (split <;> rfl)

theorem parse_iff {p : Path} {id : Nat} :
    parseSegmentId p = some id ↔ ∃ n : SegName, n.Fits ∧ n.id = id ∧ p = n.path p.dir := by
  rw [parseSegmentId_eq, Option.map_eq_some_iff]
  constructor
  · rintro ⟨n, hn, rfl⟩
    obtain ⟨hfits, hp⟩ := ofPath_iff.mp hn
    exact ⟨n, hfits, rfl, hp⟩
  · rintro ⟨n, hfits, rfl, hp⟩
    exact ⟨n, ofPath_iff.mpr ⟨hfits, hp⟩, rfl⟩

theorem parse_path {dir : Dir} {n : SegName} (h : n.Fits) :
    parseSegmentId (n.path dir) = some n.id := parse_iff.mpr ⟨n, h, rfl, rfl⟩

end SegName

theorem segmentPath_inj {dir : Dir} {i j : Nat} (h : segmentPath dir i = segmentPath dir j) :
    i = j := by
  injection h with _ h
  injection h

theorem signedPath_ne (dir : Dir) (i j : Nat) : signedPath dir i ≠ segmentPath dir j := nofun

/-- A segment's file is no file of another kind. -/
theorem SegName.path_ne_of {dir : Dir} {p : Path} (h : ∀ m : SegName, p.name ≠ m.file)
    (n : SegName) : n.path dir ≠ p := fun he => h n (congrArg Path.name he.symm)

/-- A name is one that the log gives, or has a sign. -/
theorem SegName.forall_iff {P : SegName → Prop} :
    (∀ n, P n) ↔ (∀ id, P (.plain id)) ∧ ∀ id, P ⟨id, true⟩ :=
  ⟨fun h => ⟨fun id => h _, fun id => h _⟩, fun ⟨h, h'⟩ n => by
    obtain ⟨id, _ | _⟩ := n
    · exact h id
    · exact h' id⟩

/-! ### What is listed -/

/-- The segments that are there, in the order of a listing. -/
structure Segments (dir : Dir) (d : Disk) (ns : List SegName) : Prop where
  sorted : ns.Pairwise (·.key < ·.key)
  mem : ∀ n, n ∈ ns ↔ n.Fits ∧ (d (n.path dir)).live.isSome

/-- The ids of the segments that are there, ascending, if all have names of the log. -/
structure SegIds (dir : Dir) (d : Disk) (ids : List Nat) : Prop where
  sorted : ids.Pairwise (· < ·)
  mem : ∀ id, id ∈ ids ↔ (d (segmentPath dir id)).live.isSome
  word : ∀ id ∈ ids, id < 2 ^ 64
  unsigned : ∀ id, (d (signedPath dir id)).live = none

theorem SegIds.segments {dir : Dir} {d : Disk} {ids : List Nat} (h : SegIds dir d ids) :
    Segments dir d (ids.map .plain) where
  sorted := by
    refine List.pairwise_map.mpr (h.sorted.imp fun {i j} hlt => ?_)
    rw [SegName.key_plain, SegName.key_plain]
    omega
  mem n := by
    obtain ⟨id, _ | _⟩ := n
    · rw [List.mem_map]
      constructor
      · rintro ⟨i, hi, he⟩
        cases he
        exact ⟨h.word id hi, (h.mem id).mp hi⟩
      · exact fun ⟨_, hl⟩ => ⟨id, (h.mem id).mpr hl, rfl⟩
    · refine iff_of_false (fun hm => ?_) fun ⟨_, hl⟩ => ?_
      · obtain ⟨i, _, he⟩ := List.mem_map.mp hm
        cases he
      · change (d (signedPath dir id)).live.isSome at hl
        rw [h.unsigned] at hl
        cases hl

theorem commit_name (d : Disk) (dir : Dir) (n : SegName) :
    d.commit dir (n.path dir) = (d (n.path dir)).commit := if_pos rfl

theorem commit_signed (d : Disk) (dir : Dir) (id : Nat) :
    d.commit dir (signedPath dir id) = (d (signedPath dir id)).commit := if_pos rfl

theorem commit_segment (d : Disk) (dir : Dir) (id : Nat) :
    d.commit dir (segmentPath dir id) = (d (segmentPath dir id)).commit := if_pos rfl

/-- A sorted list is determined by its elements. -/
theorem eq_of_sorted_of_mem {α : Type} {f : α → Nat} {xs ys : List α}
    (hx : xs.Pairwise (f · < f ·)) (hy : ys.Pairwise (f · < f ·)) (h : ∀ a, a ∈ xs ↔ a ∈ ys) :
    xs = ys := by
  have hp : xs.Perm ys := by
    refine (List.perm_ext_iff_of_nodup ?_ ?_).mpr h
    · exact hx.imp fun hlt => fun e => absurd hlt (e ▸ Nat.lt_irrefl _)
    · exact hy.imp fun hlt => fun e => absurd hlt (e ▸ Nat.lt_irrefl _)
  exact hp.eq_of_pairwise (fun a b _ _ h1 h2 => absurd h1 (Nat.not_lt.mpr (Nat.le_of_lt h2))) hx hy

theorem listed_segments {dir : Dir} {d : Disk} {ns : List SegName} {ps : List Path}
    (hns : Segments dir d ns) (hps : d.Lists dir ps) :
    (ps.filterMap fun p => (parseSegmentId p).map fun id => (id, p)).insertionSort
      (fun a b => segmentKey a ≤ segmentKey b) = ns.map fun n => (n.id, n.path dir) := by
  let found := ps.filterMap fun p => (parseSegmentId p).map fun id => (id, p)
  have hmem : ∀ a : Nat × Path, a ∈ found ↔ a ∈ ns.map fun n => (n.id, n.path dir) := by
    rintro ⟨id, p⟩
    simp only [found, List.mem_filterMap, Option.map_eq_some_iff, List.mem_map, hps.2]
    constructor
    · rintro ⟨q, ⟨rfl, hl⟩, i, hi, h⟩
      obtain ⟨rfl, rfl⟩ := Prod.mk.inj h
      obtain ⟨n, hfits, rfl, hp⟩ := SegName.parse_iff.mp hi
      refine ⟨n, (hns.mem n).mpr ⟨hfits, hp ▸ hl⟩, ?_⟩
      rw [← hp]
    · rintro ⟨n, hn, h⟩
      obtain ⟨rfl, rfl⟩ := Prod.mk.inj h
      obtain ⟨hfits, hl⟩ := (hns.mem n).mp hn
      exact ⟨n.path dir, ⟨rfl, hl⟩, n.id, SegName.parse_path hfits, rfl⟩
  have hnodup : found.Nodup := by
    refine hps.1.filterMap ?_
    intro p q a ha ha'
    simp only [Option.mem_def, Option.map_eq_some_iff] at ha ha'
    obtain ⟨_, _, rfl⟩ := ha
    obtain ⟨_, _, h⟩ := ha'
    exact (Prod.mk.inj h).2.symm
  have hsorted := List.pairwise_insertionSort
    (fun a b : Nat × Path => segmentKey a ≤ segmentKey b) found
  have hperm := List.perm_insertionSort
    (fun a b : Nat × Path => segmentKey a ≤ segmentKey b) found
  have htarget : (ns.map fun n => (n.id, n.path dir)).Pairwise
      (segmentKey · < segmentKey ·) := by
    refine List.pairwise_map.mpr (hns.sorted.imp fun {m n} hlt => ?_)
    rwa [SegName.segmentKey_eq, SegName.segmentKey_eq]
  refine eq_of_sorted_of_mem (f := segmentKey) ?_ htarget fun a => hperm.mem_iff.trans (hmem a)
  have hn := hperm.nodup_iff.mpr hnodup
  refine (hsorted.and hn).imp_of_mem ?_
  rintro a b ha hb ⟨hle, hne⟩
  refine Nat.lt_of_le_of_ne hle fun heq => hne ?_
  obtain ⟨m, _, rfl⟩ := List.mem_map.mp ((hmem a).mp (hperm.mem_iff.mp ha))
  obtain ⟨n, _, rfl⟩ := List.mem_map.mp ((hmem b).mp (hperm.mem_iff.mp hb))
  rw [SegName.segmentKey_eq, SegName.segmentKey_eq] at heq
  rw [SegName.key_inj heq]

/-- The segments among these files, in order. -/
def namesOf (ps : List Path) : List SegName :=
  (ps.filterMap SegName.ofPath).dedup.insertionSort (·.key ≤ ·.key)

/-- They are the ones that are there. -/
theorem Segments.of_lists {dir : Dir} {d : Disk} {ps : List Path} (hps : d.Lists dir ps) :
    Segments dir d (namesOf ps) := by
  let found := namesOf ps
  refine ⟨?_, fun n => ?_⟩
  · have hn : found.Nodup := (List.perm_insertionSort _ _).nodup_iff.mpr (List.nodup_dedup _)
    have hsorted : found.Pairwise (·.key ≤ ·.key) := List.pairwise_insertionSort _ _
    exact (hsorted.and hn).imp fun h => Nat.lt_of_le_of_ne h.1 fun he => h.2 (SegName.key_inj he)
  · simp only [namesOf, (List.perm_insertionSort _ _).mem_iff, List.mem_dedup, List.mem_filterMap,
      hps.2, SegName.ofPath_iff]
    constructor
    · rintro ⟨p, ⟨rfl, hl⟩, hfits, hp⟩
      exact ⟨hfits, hp ▸ hl⟩
    · exact fun ⟨hfits, hl⟩ => ⟨n.path dir, ⟨rfl, hl⟩, hfits, rfl⟩

section Specs

variable {M : Type} {e : Faults} {strict H : Prop} {C : Disk × M → Prop} {d : Disk} {m : M}

theorem wpE_listSegments {dir : Dir} {ns : List SegName} {Q : List (Nat × Path) → Disk × M → Prop}
    {R : StorageError → Disk × M → Prop} (hC : C (d, m)) (hns : Segments dir d ns)
    (hok : Q (ns.map fun n => (n.id, n.path dir)) (d, m))
    (herr : e.fail (.list dir) → ∀ msg, R (.io ⟨dir, .other []⟩ msg) (d, m)) :
    wpE (Disk.sem e) strict H C (listSegments dir) Q R (d, m) := by
  refine wpE_bind.mpr (wpE_list hC (fun ps hps => wpE_pure.mpr ⟨hC, ?_⟩) herr)
  rw [listed_segments hns hps]
  exact hok

theorem SegIds.map_plain (dir : Dir) (ids : List Nat) :
    (ids.map SegName.plain).map (fun n => (n.id, n.path dir)) =
      ids.map fun id => (id, segmentPath dir id) := List.map_map ..

theorem wpE_listSegments_ids {dir : Dir} {ids : List Nat}
    {Q : List (Nat × Path) → Disk × M → Prop} {R : StorageError → Disk × M → Prop}
    (hC : C (d, m)) (hids : SegIds dir d ids)
    (hok : Q (ids.map fun id => (id, segmentPath dir id)) (d, m))
    (herr : e.fail (.list dir) → ∀ msg, R (.io ⟨dir, .other []⟩ msg) (d, m)) :
    wpE (Disk.sem e) strict H C (listSegments dir) Q R (d, m) :=
  wpE_listSegments hC hids.segments (by rwa [SegIds.map_plain]) herr

theorem wpE_readLoop {path : Path} {b : Blob} {Q : Bytes → Disk × M → Prop}
    {R : StorageError → Disk × M → Prop} (hC : C (d, m)) (hlive : (d path).live = some b)
    (hok : Q b.content (d, m))
    (herr : ∀ off n, e.fail (.readAt path off n) → ∀ msg, R (.io path msg) (d, m)) :
    ∀ rounds read, read ≤ b.content.length → b.content.length - read ≤ rounds →
      wpE (Disk.sem e) strict H C
        (readLoop path b.content.length rounds (b.content.take read)) Q R (d, m) := by
  intro rounds
  induction rounds with
  | zero =>
    intro read hle hrounds
    have hread : read = b.content.length := by omega
    rw [hread, List.take_length]
    exact wpE_pure.mpr ⟨hC, hok⟩
  | succ rounds ih =>
    intro read hle hrounds
    have hlen : (b.content.take read).length = read := List.length_take_of_le hle
    unfold readLoop
    rw [hlen]
    by_cases hlt : read < b.content.length
    · rw [if_pos hlt]
      refine wpE_bind.mpr (wpE_readAt hC hlive hle ?_ (herr _ _))
      have hchunk : (slice b.content read (b.content.length - read)).length =
          b.content.length - read := length_slice_of_le (by omega)
      have hne : ¬ (slice b.content read (b.content.length - read)).length = 0 := by omega
      rw [if_neg hne]
      have hall : b.content.take read ++ slice b.content read (b.content.length - read) =
          b.content.take b.content.length := by
        have hd : (b.content.drop read).length ≤ b.content.length - read :=
          Nat.le_of_eq List.length_drop
        rw [slice, List.take_length, List.take_of_length_le hd, List.take_append_drop]
      rw [hall]
      exact ih b.content.length (Nat.le_refl _) (by omega)
    · rw [if_neg hlt]
      have hread : read = b.content.length := by omega
      rw [hread, List.take_length]
      exact wpE_pure.mpr ⟨hC, hok⟩

/-- Reading a segment yields its content, or nothing when it is not there. -/
theorem wpE_readAll {path : Path} {Q : Bytes → Disk × M → Prop}
    {R : StorageError → Disk × M → Prop} (hC : C (d, m))
    (hok : Q ((d path).live.elim [] Blob.content) (d, m))
    (herr : ∀ o, e.fail o → ∀ msg, R (.io o.target msg) (d, m)) :
    wpE (Disk.sem e) strict H C (readAll path) Q R (d, m) := by
  refine wpE_bind.mpr (wpE_attempt (wpE_len hC (fun b hb => ?_) (fun hn => ?_) (fun hf msg => ?_)))
  · rw [hb] at hok
    have : wpE (Disk.sem e) strict H C
        (readLoop path b.content.length b.content.length (b.content.take 0)) Q R (d, m) :=
      wpE_readLoop hC hb hok (fun off n hf msg => herr _ hf msg) _ 0 (Nat.zero_le _) (by omega)
    rwa [List.take_zero] at this
  · rw [hn] at hok
    exact wpE_pure.mpr ⟨hC, hok⟩
  · exact wpE_throw.mpr ⟨hC, herr _ hf msg⟩

end Specs

end AccretionDb.Wal
