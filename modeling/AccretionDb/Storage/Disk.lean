import AccretionDb.Storage.Basic
import Mathlib.Logic.Function.Basic

/-! # Files as a crash sees them

The abstract storage.  A file is a `Blob`: the bytes that are synced and the tail
that is not.  A path is a `Slot`, which says which file it names now, which one
it names after a power loss, and whether these are the same file; the five
constructors are the five ways the two names can stand to each other.

A power loss keeps the durable names, and of each of their files the synced bytes
and what a tear leaves of the tail.
-/

namespace AccretionDb

open CrashLogic

structure Blob where
  synced : Bytes
  tail : Bytes
  deriving DecidableEq

namespace Blob

def content (b : Blob) : Bytes := b.synced ++ b.tail

def empty : Blob := ⟨[], []⟩

def append (b : Blob) (data : Bytes) : Blob := ⟨b.synced, b.tail ++ data⟩

def sync (b : Blob) : Blob := ⟨b.content, []⟩

@[simp] theorem content_mk (s t : Bytes) : (Blob.mk s t).content = s ++ t := rfl

@[simp] theorem content_append (b : Blob) (data : Bytes) :
    (b.append data).content = b.content ++ data := (List.append_assoc ..).symm

@[simp] theorem content_sync (b : Blob) : b.sync.content = b.content := List.append_nil _

theorem append_append (b : Blob) (x y : Bytes) : (b.append x).append y = b.append (x ++ y) := by
  simp only [append, List.append_assoc]

theorem sync_sync (b : Blob) : b.sync.sync = b.sync := by
  simp only [sync, content_mk, List.append_nil]

end Blob

/-- How a path's present file and its durable file stand to each other. -/
inductive Slot
  /-- No file, now or after a crash. -/
  | absent
  /-- A file whose name is not durable. -/
  | fresh (b : Blob)
  /-- The same file now and after a crash. -/
  | kept (b : Blob)
  /-- No file now, `g` again after a crash. -/
  | ghost (g : Blob)
  /-- `b` now, another file `g` after a crash. -/
  | shadow (b g : Blob)

namespace Slot

/-- The file the process sees. -/
def live : Slot → Option Blob
  | fresh b | kept b | shadow b _ => some b
  | absent | ghost _ => none

/-- The file a crash leaves. -/
def durable : Slot → Option Blob
  | kept g | ghost g | shadow _ g => some g
  | absent | fresh _ => none

/-- Name another file by a path. -/
def link (b : Blob) : Slot → Slot
  | absent | fresh _ => fresh b
  | kept g | ghost g | shadow _ g => shadow b g

def unlink : Slot → Slot
  | absent | fresh _ => absent
  | kept g | ghost g | shadow _ g => ghost g

/-- Change the bytes of the file the process sees. -/
def edit (f : Blob → Blob) : Slot → Slot
  | absent => absent
  | fresh b => fresh (f b)
  | kept b => kept (f b)
  | ghost g => ghost g
  | shadow b g => shadow (f b) g

/-- Make the present name the durable one. -/
def commit : Slot → Slot
  | fresh b | kept b | shadow b _ => kept b
  | absent | ghost _ => absent

/-- The present file's name is durable. -/
def linked : Slot → Prop
  | kept _ => True
  | _ => False

@[simp] theorem live_absent : absent.live = none := rfl
@[simp] theorem live_kept (b : Blob) : (kept b).live = some b := rfl
@[simp] theorem durable_absent : absent.durable = none := rfl
@[simp] theorem durable_kept (b : Blob) : (kept b).durable = some b := rfl
@[simp] theorem commit_absent : absent.commit = absent := rfl
@[simp] theorem commit_kept (b : Blob) : (kept b).commit = kept b := rfl
@[simp] theorem edit_kept (f : Blob → Blob) (b : Blob) : (kept b).edit f = kept (f b) := rfl

@[simp] theorem live_link (b : Blob) (s : Slot) : (s.link b).live = some b := by
  cases s <;> rfl

@[simp] theorem live_unlink (s : Slot) : s.unlink.live = none := by
  cases s <;> rfl

@[simp] theorem live_edit (f : Blob → Blob) (s : Slot) : (s.edit f).live = s.live.map f := by
  cases s <;> rfl

@[simp] theorem live_commit (s : Slot) : s.commit.live = s.live := by
  cases s <;> rfl

@[simp] theorem durable_link (b : Blob) (s : Slot) : (s.link b).durable = s.durable := by
  cases s <;> rfl

@[simp] theorem durable_unlink (s : Slot) : s.unlink.durable = s.durable := by
  cases s <;> rfl

@[simp] theorem durable_commit (s : Slot) : s.commit.durable = s.live := by
  cases s <;> rfl

@[simp] theorem commit_commit (s : Slot) : s.commit.commit = s.commit := by
  cases s <;> rfl

theorem edit_edit (f g : Blob → Blob) (s : Slot) : (s.edit f).edit g = s.edit fun b => g (f b) := by
  cases s <;> rfl

theorem edit_link (f : Blob → Blob) (b : Blob) (s : Slot) : (s.link b).edit f = s.link (f b) := by
  cases s <;> rfl

theorem commit_eq_kept {s : Slot} {b : Blob} (h : s.live = some b) : s.commit = kept b := by
  cases s <;> cases h <;> rfl

theorem commit_eq_absent {s : Slot} (h : s.live = none) : s.commit = absent := by
  cases s <;> cases h <;> rfl

end Slot

abbrev Disk := Path → Slot

namespace Disk

/-- Name a new file by a path. -/
def put (d : Disk) (p : Path) (b : Blob) : Disk := Function.update d p ((d p).link b)

@[simp] theorem live_put (d : Disk) (p : Path) (b : Blob) : (d.put p b p).live = some b := by
  rw [put, Function.update_self, Slot.live_link]

theorem put_of_ne {d : Disk} {p q : Path} (h : q ≠ p) (b : Blob) : d.put p b q = d q :=
  Function.update_of_ne h ..

theorem durable_put (d : Disk) (p : Path) (b : Blob) (q : Path) :
    (d.put p b q).durable = (d q).durable := by
  by_cases hq : q = p
  · rw [hq, put, Function.update_self, Slot.durable_link]
  · rw [put_of_ne hq]

/-- Editing a new file is naming another one. -/
theorem edit_put (d : Disk) (p : Path) (b : Blob) (f : Blob → Blob) :
    Function.update (d.put p b) p ((d.put p b p).edit f) = d.put p (f b) := by
  rw [put, Function.update_self, Slot.edit_link, Function.update_idem, put]

/-- `sync_dir`. -/
def commit (d : Disk) (dir : Dir) : Disk := fun p => if p.dir = dir then (d p).commit else d p

@[simp] theorem live_commit (d : Disk) (dir : Dir) (p : Path) :
    (d.commit dir p).live = (d p).live := by
  unfold commit
  split
  · exact Slot.live_commit _
  · rfl

theorem durable_commit {d : Disk} {dir : Dir} {p : Path} (h : p.dir = dir) :
    (d.commit dir p).durable = (d p).live := by
  rw [commit, if_pos h, Slot.durable_commit]

theorem commit_commit (d : Disk) (dir : Dir) : (d.commit dir).commit dir = d.commit dir := by
  funext p
  unfold commit
  by_cases hp : p.dir = dir
  · rw [if_pos hp, if_pos hp, Slot.commit_commit]
  · rw [if_neg hp, if_neg hp]

/-- Every method but `list` is a function of the disk. -/
def run : (o : StorageOp) → Disk → o.Resp × Disk
  | .create p, d =>
    match (d p).live with
    | some _ => (.error (.alreadyExists p), d)
    | none => (.ok (), Function.update d p ((d p).link .empty))
  | .open p, d =>
    match (d p).live with
    | some _ => (.ok (), d)
    | none => (.error (.notFound p), d)
  | .append p data, d =>
    match (d p).live with
    | some b => (.ok b.content.length, Function.update d p ((d p).edit (·.append data)))
    | none => (.error (.notFound p), d)
  | .writeAt p _ _, d => (.error (.notFound p), d)
  | .readAt p offset len, d =>
    match (d p).live with
    | some b =>
      if offset > b.content.length then (.error (.outOfBounds p offset b.content.length), d)
      else (.ok (slice b.content offset len), d)
    | none => (.error (.notFound p), d)
  | .syncFile p, d =>
    match (d p).live with
    | some _ => (.ok (), Function.update d p ((d p).edit Blob.sync))
    | none => (.error (.notFound p), d)
  | .syncDir dir, d => (.ok (), d.commit dir)
  | .rename src dst, d =>
    match (d src).live with
    | some b =>
      (.ok (), Function.update (Function.update d dst ((d dst).link b)) src (d src).unlink)
    | none => (.error (.notFound src), d)
  | .delete p, d =>
    match (d p).live with
    | some _ => (.ok (), Function.update d p (d p).unlink)
    | none => (.error (.notFound p), d)
  | .list _, d => (.ok [], d)
  | .len p, d =>
    match (d p).live with
    | some b => (.ok b.content.length, d)
    | none => (.error (.notFound p), d)

/-- A listing names every present file of the directory once, in some order. -/
def Lists (d : Disk) (dir : Dir) (ps : List Path) : Prop :=
  ps.Nodup ∧ ∀ p, p ∈ ps ↔ p.dir = dir ∧ (d p).live.isSome

/-- What a method does when it does what it says. -/
def Does : (o : StorageOp) → Disk → o.Resp → Disk → Prop
  | .list dir, d, r, d' => (∃ ps, r = .ok ps ∧ d.Lists dir ps) ∧ d' = d
  | o, d, r, d' => (r, d') = run o d

/-- The abstract storage with injected errors.  It has no meaning for a write in
the middle of a file, nor for a rename that would leave one file with two durable
names. -/
def sem (e : Faults) : Sem StorageOp StorageOp.Resp Disk where
  safe
    | .writeAt .., _ => False
    | .rename src dst, d => src ≠ dst ∧ ¬ (d src).linked
    | _, _ => True
  step
    | .append p data, d, r, d' =>
      Does (.append p data) d r d' ∨
      (e.fail (.append p data) ∧ (∃ msg, r = .error (.io p msg)) ∧ d' = d) ∨
      ((∃ msg, r = .error (.io p msg)) ∧ ∃ n, n ≤ data.length ∧ e.short p data n ∧
        d' = (run (.append p (data.take n)) d).2)
    | o, d, r, d' =>
      Does o d r d' ∨ (e.fail o ∧ (∃ msg, r = .error (.io o.target msg)) ∧ d' = d)

end Disk

/-! ### Power loss -/

/-- What a power loss may leave of a file: the synced bytes with a prefix of the
tail, or the whole file with one bit of the tail flipped. -/
inductive Torn (b : Blob) : Bytes → Prop
  | cut (n : Nat) (h : n ≤ b.tail.length) : Torn b (b.synced ++ b.tail.take n)
  | flip (i : Nat) (h : i < b.tail.length * 8) :
      Torn b (flipBit b.content (b.synced.length * 8 + i))

theorem Torn.of_tail_eq_nil {b : Blob} {k : Bytes} (h : Torn b k) (ht : b.tail = []) :
    k = b.synced := by
  cases h with
  | cut n h => simp [ht]
  | flip i h => simp [ht] at h

theorem Torn.synced_prefix {b : Blob} {k : Bytes} (h : Torn b k) : b.synced <+: k := by
  cases h with
  | cut n h => exact List.prefix_append _ _
  | flip i h =>
    rw [Blob.content, flipBit_append_right]
    exact List.prefix_append _ _

theorem Torn.length_le {b : Blob} {k : Bytes} (h : Torn b k) : k.length ≤ b.content.length := by
  cases h with
  | cut n h =>
    rw [Blob.content, List.length_append, List.length_append, List.length_take]
    omega
  | flip i h => rw [length_flipBit]

/-- The durable names are left, each with what a tear leaves of its file. -/
def Disk.Crash (d d' : Disk) : Prop :=
  ∀ p, match (d p).durable with
    | none => d' p = .absent
    | some g => ∃ k, Torn g k ∧ d' p = .kept ⟨k, []⟩

end AccretionDb
