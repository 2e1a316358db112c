import AccretionDb.Lib.Bytes
import Mathlib.Logic.Function.Basic

/-!
# A directory of the operating system

The files of one directory as a POSIX system keeps them.  A name is bound to an inode,
an inode holds bytes, and a program moves bytes through handles that have a position.
The system is free in three things: in which order it names the entries of a directory,
how many bytes one `read` or `write` moves, as long as it moves one, and how large a file
may get.  `Kernel` fixes them, and what holds for every kernel holds on every system.  A program
that wants all of its bytes moved goes on until they are (`writeAll_eq`).
-/

namespace CrashLogic

namespace Posix

/-- The ways a call can fail that matter here. -/
inductive ErrorKind
  | notFound
  | alreadyExists
  | invalidInput
  | fileTooLarge
  | writeZero
  deriving DecidableEq, Repr

structure Kernel where
  order : Nat → List Bytes → List Bytes
  order_perm : ∀ t names, (order t names).Perm names
  /-- At this moment a call moves at most one byte more than this. -/
  grant : Nat → Nat
  /-- The largest size of a file, and the largest offset: a signed word, or less. -/
  maxSize : Nat
  maxSize_lt : maxSize < 2 ^ 63

/-- `names` lists the names that are bound, and `clock` counts the calls that the kernel
was free in. -/
structure Fs where
  dir : Bytes → Option Nat
  names : List Bytes
  data : Nat → Bytes
  nextIno : Nat
  clock : Nat

structure Handle where
  ino : Nat
  pos : Nat
  append : Bool

structure OpenFlags where
  createNew : Bool
  append : Bool

/-- Write `chunk` at `pos`; a gap behind the end is filled with zeros. -/
def overwrite (b : Bytes) (pos : Nat) (chunk : Bytes) : Bytes :=
  b.take pos ++ List.replicate (pos - b.length) 0 ++ chunk ++ b.drop (pos + chunk.length)

namespace Fs

def empty : Fs := ⟨fun _ => none, [], fun _ => [], 0, 0⟩

def tick (fs : Fs) : Fs := { fs with clock := fs.clock + 1 }

/-- The bytes of the file a name is bound to. -/
def content (fs : Fs) (name : Bytes) : Option Bytes := (fs.dir name).map fs.data

/-- A new file, without bytes. -/
def addFile (name : Bytes) (fs : Fs) : Fs :=
  { fs with
    dir := Function.update fs.dir name (some fs.nextIno)
    names := name :: fs.names
    data := Function.update fs.data fs.nextIno []
    nextIno := fs.nextIno + 1 }

/-- An entry goes away. -/
def dropName (name : Bytes) (fs : Fs) : Fs :=
  { fs with
    dir := Function.update fs.dir name none
    names := fs.names.filter fun n => n ≠ name }

/-- An entry goes away, and another one is bound to its inode. -/
def moveName (src dst : Bytes) (i : Nat) (fs : Fs) : Fs :=
  { fs with
    dir := Function.update (Function.update fs.dir dst (some i)) src none
    names := dst :: fs.names.filter fun n => n ≠ src ∧ n ≠ dst }

def openFile (flags : OpenFlags) (name : Bytes) (fs : Fs) : Except ErrorKind Handle × Fs :=
  match fs.dir name with
  | some i =>
    if flags.createNew then (.error .alreadyExists, fs) else (.ok ⟨i, 0, flags.append⟩, fs)
  | none =>
    if flags.createNew then (.ok ⟨fs.nextIno, 0, flags.append⟩, fs.addFile name)
    else (.error .notFound, fs)

/-- The length of the file. -/
def size (fs : Fs) (h : Handle) : Nat := (fs.data h.ino).length

def read (k : Kernel) (h : Handle) (len : Nat) (fs : Fs) : Bytes × Handle × Fs :=
  let chunk := slice (fs.data h.ino) h.pos (min len (k.grant fs.clock + 1))
  (chunk, { h with pos := h.pos + chunk.length }, fs.tick)

/-- Where the next write goes. -/
def writePos (fs : Fs) (h : Handle) : Nat := if h.append then fs.size h else h.pos

def write (k : Kernel) (h : Handle) (data : Bytes) (fs : Fs) :
    Except ErrorKind Nat × Handle × Fs :=
  let n := min data.length (k.grant fs.clock + 1)
  let pos := fs.writePos h
  if k.maxSize < pos + n then (.error .fileTooLarge, h, fs.tick)
  else
    (.ok n, { h with pos := pos + n },
      { fs.tick with
        data := Function.update fs.data h.ino (overwrite (fs.data h.ino) pos (data.take n)) })

/-- Write until nothing is left. -/
def writeAll (k : Kernel) (data : Bytes) (h : Handle) (fs : Fs) : Except ErrorKind Unit × Fs :=
  if hd : data = [] then (.ok (), fs)
  else
    match fs.write k h data with
    | (.error e, _, fs') => (.error e, fs')
    | (.ok n, h', fs') =>
      if hn : n = 0 then (.error .writeZero, fs')
      else
        have hlt : (data.drop n).length < data.length := by
          have hpos := List.length_pos_iff.mpr hd
          rw [List.length_drop]
          omega
        writeAll k (data.drop n) h' fs'
termination_by data.length

/-- Bind `dst` to the file of `src`, in the place of whatever it was bound to. -/
def rename (src dst : Bytes) (fs : Fs) : Except ErrorKind Unit × Fs :=
  match fs.dir src with
  | none => (.error .notFound, fs)
  | some i => (.ok (), if src = dst then fs else fs.moveName src dst i)

def unlink (name : Bytes) (fs : Fs) : Except ErrorKind Unit × Fs :=
  match fs.dir name with
  | none => (.error .notFound, fs)
  | some _ => (.ok (), fs.dropName name)

/-- The length of the file a name is bound to. -/
def stat (name : Bytes) (fs : Fs) : Except ErrorKind Nat :=
  match fs.dir name with
  | none => .error .notFound
  | some i => .ok (fs.data i).length

def readDir (k : Kernel) (fs : Fs) : List Bytes × Fs := (k.order fs.clock fs.names, fs.tick)

end Fs

/-- Move a handle; an offset that is too large is refused. -/
def Handle.seek (k : Kernel) (h : Handle) (off : Nat) : Except ErrorKind Handle :=
  if k.maxSize < off then .error .invalidInput else .ok { h with pos := off }

/-! ### Bytes in a file -/

theorem overwrite_eq {b : Bytes} {pos : Nat} (h : pos ≤ b.length) (chunk : Bytes) :
    overwrite b pos chunk = b.take pos ++ chunk ++ b.drop (pos + chunk.length) := by
  rw [overwrite, Nat.sub_eq_zero_of_le h, List.replicate_zero, List.append_nil]

theorem overwrite_nil {b : Bytes} {pos : Nat} (h : pos ≤ b.length) : overwrite b pos [] = b := by
  rw [overwrite_eq h, List.append_nil, List.length_nil, Nat.add_zero, List.take_append_drop]

theorem overwrite_end (b chunk : Bytes) : overwrite b b.length chunk = b ++ chunk := by
  rw [overwrite_eq (Nat.le_refl _), List.take_length, List.drop_eq_nil_of_le (by omega),
    List.append_nil]

theorem length_overwrite {b : Bytes} {pos : Nat} (h : pos ≤ b.length) (chunk : Bytes) :
    (overwrite b pos chunk).length = max b.length (pos + chunk.length) := by
  rw [overwrite_eq h]
  simp only [List.length_append, List.length_take, List.length_drop]
  omega

/-- Two writes in a row are one. -/
theorem overwrite_overwrite {b : Bytes} {pos : Nat} (h : pos ≤ b.length) (x y : Bytes) :
    overwrite (overwrite b pos x) (pos + x.length) y = overwrite b pos (x ++ y) := by
  have hlen := length_overwrite h x
  have hpre : (b.take pos ++ x).length = pos + x.length := by
    rw [List.length_append, List.length_take, Nat.min_eq_left h]
  rw [overwrite_eq (by omega), overwrite_eq h, overwrite_eq h, ← hpre, List.take_left,
    ← List.drop_drop, List.drop_left, List.drop_drop, hpre, List.length_append,
    List.append_assoc (b.take pos), Nat.add_assoc]

/-- A range is what one read takes off its front, and the rest. -/
theorem slice_split (b : Bytes) (off : Nat) {n want : Nat} (h : n ≤ want) :
    slice b off n ++ slice b (off + (slice b off n).length) (want - (slice b off n).length) =
      slice b off want := by
  simp only [slice, ← List.drop_drop]
  generalize b.drop off = c
  rw [List.length_take]
  rcases Nat.le_total n c.length with hc | hc
  · rw [Nat.min_eq_left hc, ← List.take_add, Nat.add_sub_cancel' h]
  · rw [Nat.min_eq_right hc, List.drop_length, List.take_nil, List.append_nil,
      List.take_of_length_le hc, List.take_of_length_le (Nat.le_trans hc h)]

/-! ### The loop of a write -/

namespace Fs

/-- The file of a handle gets other bytes. -/
def setData (fs : Fs) (i : Nat) (b : Bytes) : Fs := { fs with data := Function.update fs.data i b }

@[simp] theorem data_setData (fs : Fs) (i : Nat) (b : Bytes) :
    (fs.setData i b).data = Function.update fs.data i b := rfl

@[simp] theorem dir_setData (fs : Fs) (i : Nat) (b : Bytes) : (fs.setData i b).dir = fs.dir := rfl

/-- **All of the bytes are written**, in however many pieces, where the file has no gap
before them and does not grow too large. -/
theorem writeAll_eq (k : Kernel) : ∀ (data : Bytes) (h : Handle) (fs : Fs),
    fs.writePos h ≤ fs.size h → fs.writePos h + data.length ≤ k.maxSize →
    ∃ t, fs.writeAll k data h = (.ok (),
      { fs.setData h.ino (overwrite (fs.data h.ino) (fs.writePos h) data) with clock := t }) := by
  intro data
  induction hn : data.length using Nat.strong_induction_on generalizing data with
  | h n ih =>
    intro h fs hgap hroom
    by_cases hd : data = []
    · refine ⟨fs.clock, ?_⟩
      rw [writeAll, dif_pos hd, hd, overwrite_nil hgap, setData, Function.update_eq_self]
    · have hpos := List.length_pos_iff.mpr hd
      -- one write moves the bytes of `chunk`, and the rest is written behind them
      let m := min data.length (k.grant fs.clock + 1)
      have hm : 0 < m ∧ m ≤ data.length := by omega
      have hlen : (data.take m).length = m := by
        rw [List.length_take]
        omega
      have hw : fs.write k h data = (.ok m, { h with pos := fs.writePos h + m },
          { fs.setData h.ino (overwrite (fs.data h.ino) (fs.writePos h) (data.take m)) with
            clock := fs.clock + 1 }) := by
        rw [write, if_neg (by omega)]
        rfl
      have hsize : (overwrite (fs.data h.ino) (fs.writePos h) (data.take m)).length =
          max (fs.data h.ino).length (fs.writePos h + m) := by
        rw [length_overwrite hgap, hlen]
      have hnext : writePos
          { fs.setData h.ino (overwrite (fs.data h.ino) (fs.writePos h) (data.take m)) with
            clock := fs.clock + 1 } { h with pos := fs.writePos h + m } = fs.writePos h + m := by
        cases ha : h.append with
        | false => simp only [writePos, ha, Bool.false_eq_true, if_false]
        | true =>
          simp only [writePos, size, setData, ha, if_true, Function.update_self] at hsize ⊢
          omega
      have hdrop : (data.drop m).length = data.length - m := List.length_drop
      obtain ⟨t, ht⟩ := ih (data.drop m).length (by omega) (data.drop m) rfl
        { h with pos := fs.writePos h + m }
        { fs.setData h.ino (overwrite (fs.data h.ino) (fs.writePos h) (data.take m)) with
          clock := fs.clock + 1 }
        (by
          rw [hnext]
          simp only [size, setData, Function.update_self, hsize]
          exact Nat.le_max_right _ _)
        (by omega)
      refine ⟨t, ?_⟩
      rw [writeAll, dif_neg hd, hw]
      dsimp only
      rw [dif_neg (by omega), ht, hnext]
      simp only [setData, Function.update_self, Function.update_idem]
      have hjoin := overwrite_overwrite hgap (data.take m) (data.drop m)
      rw [hlen, List.take_append_drop] at hjoin
      rw [hjoin]

/-! ### The directory -/

/-- A name is bound to an inode of its own, and no file is too large. -/
structure Sound (max : Nat) (fs : Fs) : Prop where
  mem : ∀ name, name ∈ fs.names ↔ (fs.dir name).isSome
  nodup : fs.names.Nodup
  lt : ∀ name i, fs.dir name = some i → i < fs.nextIno
  inj : ∀ m n i, fs.dir m = some i → fs.dir n = some i → m = n
  size : ∀ i, (fs.data i).length ≤ max

variable {max : Nat}

theorem empty_sound : empty.Sound max where
  mem _ := by simp only [empty, List.not_mem_nil, Option.isSome_none, Bool.false_eq_true]
  nodup := List.nodup_nil
  lt _ _ h := by cases h
  inj _ _ _ h := by cases h
  size _ := Nat.zero_le _

theorem content_some {fs : Fs} {name : Bytes} {i : Nat} (h : fs.dir name = some i) :
    fs.content name = some (fs.data i) := by
  rw [content, h, Option.map_some]

theorem content_none {fs : Fs} {name : Bytes} (h : fs.dir name = none) :
    fs.content name = none := by
  rw [content, h, Option.map_none]

/-- Only the directory and the bytes matter. -/
theorem sound_clock {fs : Fs} (hs : fs.Sound max) (t : Nat) : { fs with clock := t }.Sound max :=
  ⟨hs.mem, hs.nodup, hs.lt, hs.inj, hs.size⟩

theorem setData_sound {fs : Fs} (hs : fs.Sound max) (i : Nat) {b : Bytes} (hb : b.length ≤ max) :
    (fs.setData i b).Sound max where
  mem := hs.mem
  nodup := hs.nodup
  lt := hs.lt
  inj := hs.inj
  size j := by
    rw [data_setData]
    by_cases hj : j = i
    · rw [hj, Function.update_self]
      exact hb
    · rw [Function.update_of_ne hj]
      exact hs.size j

theorem content_setData {fs : Fs} (hs : fs.Sound max) {name : Bytes} {i : Nat}
    (hi : fs.dir name = some i) (b : Bytes) :
    (fs.setData i b).content = Function.update fs.content name (some b) := by
  funext m
  by_cases hm : m = name
  · rw [hm, Function.update_self, content, dir_setData, hi, Option.map_some, data_setData,
      Function.update_self]
  · rw [Function.update_of_ne hm, content, content, dir_setData, data_setData]
    cases hj : fs.dir m with
    | none => rfl
    | some j =>
      have hne : j ≠ i := fun h => hm (hs.inj m name i (by rw [hj, h]) hi)
      rw [Option.map_some, Option.map_some, Function.update_of_ne hne]

@[simp] theorem dir_addFile (fs : Fs) (name : Bytes) :
    (fs.addFile name).dir = Function.update fs.dir name (some fs.nextIno) := rfl

@[simp] theorem data_addFile (fs : Fs) (name : Bytes) :
    (fs.addFile name).data = Function.update fs.data fs.nextIno [] := rfl

theorem addFile_sound {fs : Fs} (hs : fs.Sound max) {name : Bytes} (h : fs.dir name = none) :
    (fs.addFile name).Sound max where
  mem m := by
    rw [dir_addFile, addFile, List.mem_cons, hs.mem m]
    by_cases hm : m = name
    · rw [hm, Function.update_self]
      exact iff_of_true (.inl rfl) rfl
    · rw [Function.update_of_ne hm, or_iff_right hm]
  nodup := by
    refine List.nodup_cons.mpr ⟨fun hmem => ?_, hs.nodup⟩
    have hsome := (hs.mem name).mp hmem
    rw [h] at hsome
    cases hsome
  lt m i hi := by
    rw [dir_addFile] at hi
    show i < fs.nextIno + 1
    by_cases hm : m = name
    · rw [hm, Function.update_self] at hi
      cases hi
      exact Nat.lt_succ_self _
    · rw [Function.update_of_ne hm] at hi
      exact Nat.lt_succ_of_lt (hs.lt m i hi)
  inj m n i hm hn := by
    rw [dir_addFile] at hm hn
    by_cases hm' : m = name
    · by_cases hn' : n = name
      · rw [hm', hn']
      · rw [hm', Function.update_self] at hm
        rw [Function.update_of_ne hn'] at hn
        cases hm
        exact absurd (hs.lt n _ hn) (Nat.lt_irrefl _)
    · rw [Function.update_of_ne hm'] at hm
      by_cases hn' : n = name
      · rw [hn', Function.update_self] at hn
        cases hn
        exact absurd (hs.lt m _ hm) (Nat.lt_irrefl _)
      · rw [Function.update_of_ne hn'] at hn
        exact hs.inj m n i hm hn
  size i := by
    rw [data_addFile]
    by_cases hi : i = fs.nextIno
    · rw [hi, Function.update_self]
      exact Nat.zero_le _
    · rw [Function.update_of_ne hi]
      exact hs.size i

theorem content_addFile {fs : Fs} (hs : fs.Sound max) (name : Bytes) :
    (fs.addFile name).content = Function.update fs.content name (some []) := by
  funext m
  rw [content, dir_addFile, data_addFile]
  by_cases hm : m = name
  · rw [hm, Function.update_self, Function.update_self, Option.map_some, Function.update_self]
  · rw [Function.update_of_ne hm, Function.update_of_ne hm, content]
    cases hj : fs.dir m with
    | none => rfl
    | some j =>
      have hne : j ≠ fs.nextIno := Nat.ne_of_lt (hs.lt m j hj)
      rw [Option.map_some, Option.map_some, Function.update_of_ne hne]

@[simp] theorem dir_dropName (fs : Fs) (name : Bytes) :
    (fs.dropName name).dir = Function.update fs.dir name none := rfl

theorem dropName_sound {fs : Fs} (hs : fs.Sound max) (name : Bytes) : (fs.dropName name).Sound max := by
  have hold : ∀ {m j}, (fs.dropName name).dir m = some j → fs.dir m = some j := by
    intro m j hj
    rw [dir_dropName] at hj
    by_cases hm : m = name
    · rw [hm, Function.update_self] at hj
      cases hj
    · rwa [Function.update_of_ne hm] at hj
  constructor
  · intro m
    rw [dir_dropName, dropName, List.mem_filter, hs.mem m]
    by_cases hm : m = name
    · simp [hm]
    · simp [hm]
  · exact hs.nodup.filter _
  · intro m j hj
    exact hs.lt m j (hold hj)
  · intro m n j hm hn
    exact hs.inj m n j (hold hm) (hold hn)
  · exact hs.size

theorem content_dropName (fs : Fs) (name : Bytes) :
    (fs.dropName name).content = Function.update fs.content name none := by
  funext m
  rw [content, dir_dropName]
  by_cases hm : m = name
  · rw [hm, Function.update_self, Function.update_self, Option.map_none]
  · rw [Function.update_of_ne hm, Function.update_of_ne hm, content]
    rfl

@[simp] theorem dir_moveName (fs : Fs) (src dst : Bytes) (i : Nat) : (fs.moveName src dst i).dir =
    Function.update (Function.update fs.dir dst (some i)) src none := rfl

theorem moveName_sound {fs : Fs} (hs : fs.Sound max) {src dst : Bytes} {i : Nat}
    (h : fs.dir src = some i) (hne : src ≠ dst) : (fs.moveName src dst i).Sound max := by
  have hold : ∀ {m j}, (fs.moveName src dst i).dir m = some j →
      m ≠ src ∧ (m = dst ∧ j = i ∨ fs.dir m = some j) := by
    intro m j hj
    rw [dir_moveName] at hj
    by_cases hm : m = src
    · rw [hm, Function.update_self] at hj
      cases hj
    · rw [Function.update_of_ne hm] at hj
      refine ⟨hm, ?_⟩
      by_cases hm' : m = dst
      · rw [hm', Function.update_self] at hj
        cases hj
        exact .inl ⟨hm', rfl⟩
      · rw [Function.update_of_ne hm'] at hj
        exact .inr hj
  constructor
  · intro m
    rw [dir_moveName, moveName, List.mem_cons, List.mem_filter, hs.mem m]
    by_cases hm : m = src
    · simp [hm, hne]
    · rw [Function.update_of_ne hm]
      by_cases hm' : m = dst
      · simp [hm']
      · simp [hm, hm']
  · refine List.nodup_cons.mpr ⟨fun hmem => ?_, hs.nodup.filter _⟩
    exact (of_decide_eq_true (List.mem_filter.mp hmem).2).2 rfl
  · intro m j hj
    rcases (hold hj).2 with ⟨-, rfl⟩ | hj
    · exact hs.lt src _ h
    · exact hs.lt m j hj
  · intro m n j hm hn
    obtain ⟨hms, hm'⟩ := hold hm
    obtain ⟨hns, hn'⟩ := hold hn
    rcases hm' with ⟨rfl, rfl⟩ | hm'
    · rcases hn' with ⟨rfl, -⟩ | hn'
      · rfl
      · exact absurd (hs.inj n src _ hn' h) hns
    · rcases hn' with ⟨rfl, rfl⟩ | hn'
      · exact absurd (hs.inj m src _ hm' h) hms
      · exact hs.inj m n j hm' hn'
  · exact hs.size

theorem content_moveName {fs : Fs} {src dst : Bytes} {i : Nat} (h : fs.dir src = some i) :
    (fs.moveName src dst i).content =
      Function.update (Function.update fs.content dst (fs.content src)) src none := by
  funext m
  rw [content, dir_moveName]
  by_cases hm : m = src
  · rw [hm, Function.update_self, Function.update_self, Option.map_none]
  · rw [Function.update_of_ne hm, Function.update_of_ne hm]
    by_cases hm' : m = dst
    · rw [hm', Function.update_self, Function.update_self, content, h]
      rfl
    · rw [Function.update_of_ne hm', Function.update_of_ne hm', content]
      rfl

end Fs

end Posix

end CrashLogic
