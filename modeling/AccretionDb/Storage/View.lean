import AccretionDb.Lib.Checked
import AccretionDb.Storage.Exec

/-! # What a program reads in one file

A program that only reads one file is a function of that file's bytes: `runOn` runs it on
the bytes alone, and the simulator gives the same outcome and stays as it is
(`exec_runOn`).
-/

namespace AccretionDb

open CrashLogic

variable {M ε ε' α β : Type}

/-- The call only reads the file at this path. -/
def StorageOp.Reads (path : Path) : StorageOp → Prop
  | .readAt p _ _ | .len p => p = path
  | _ => False

/-- What a reading call at a file with these bytes answers. -/
def fileAnswer (c : Option Bytes) : (o : StorageOp) → o.Resp
  | .readAt p offset len =>
    match c with
    | some c =>
      if offset > c.length then .error (.outOfBounds p offset c.length)
      else .ok (slice c offset len)
    | none => .error (.notFound p)
  | .len p =>
    match c with
    | some c => .ok c.length
    | none => .error (.notFound p)
  | o => .error (.io o.target "not a reading call")

/-- Run a program on the bytes of one file. -/
def runOn (c : Option Bytes) (p : Io Unit ε α) : Option (Except ε α) :=
  (eval (memRun fun o u => (fileAnswer c o, u)) p.run ((), ())).map Prod.fst

theorem SimFs.run_reads {path : Path} {o : StorageOp} (h : o.Reads path) (s : SimFs) :
    run o s = (fileAnswer (s.contents path) o, s) := by
  cases o with
  | readAt p offset len =>
    obtain rfl : p = path := h
    show s.readAt p offset len = _
    rw [readAt, contents]
    cases (s.files p).liveInode with
    | none => rfl
    | some i =>
      show (if offset > (s.inodes i).live.length then _ else _) =
        ((if offset > (s.inodes i).live.length then _ else _), s)
      by_cases hoff : offset > (s.inodes i).live.length
      · rw [if_pos hoff, if_pos hoff]
      · rw [if_neg hoff, if_neg hoff]
  | len p =>
    obtain rfl : p = path := h
    show s.len p = _
    rw [len, contents]
    cases (s.files p).liveInode with
    | none => rfl
    | some i => rfl
  | _ => exact h.elim

/-! ### Programs that only read -/

/-- Every call in the tree only reads the file at this path. -/
def ProgReads (path : Path) : Prog (Eff StorageOp M) (Eff.Resp StorageOp.Resp) α → Prop
  | .ret _ => True
  | .op (.io o) k => o.Reads path ∧ ∀ r, ProgReads path (k r)
  | .op (.upd _) k => ∀ m, ProgReads path (k m)
  | .op (.fits _ _) k => ProgReads path (k ())
  | .hang => True

/-- The program only reads the file at this path. -/
def ReadsOnly (path : Path) (p : Io M ε α) : Prop := ProgReads path p.run

theorem ProgReads.bind {path : Path} {p : Prog (Eff StorageOp M) (Eff.Resp StorageOp.Resp) α}
    {f : α → Prog (Eff StorageOp M) (Eff.Resp StorageOp.Resp) β} (hp : ProgReads path p)
    (hf : ∀ a, ProgReads path (f a)) : ProgReads path (p >>= f) := by
  induction p with
  | ret a => exact hf a
  | hang => exact trivial
  | op o k ih =>
    cases o with
    | io o => exact ⟨hp.1, fun r => ih r (hp.2 r)⟩
    | upd g => exact fun m => ih m (hp m)
    | fits c => exact ih () hp

namespace ReadsOnly

variable {path : Path}

theorem pure (a : α) : ReadsOnly path (pure a : Io M ε α) := trivial

theorem throw (err : ε) : ReadsOnly path (throw err : Io M ε α) := trivial

theorem hang : ReadsOnly path (Act.hang : Io M ε α) := trivial

theorem ofExcept (r : Except ε α) : ReadsOnly path (Act.ofExcept r : Io M ε α) := trivial

theorem unwrap (x : Option α) : ReadsOnly path (Act.unwrap x : Io M ε α) := by
  cases x with
  | none => exact hang
  | some a => exact pure a

theorem checked (x : Option (Except ε α)) : ReadsOnly path (Act.checked x : Io M ε α) := by
  cases x with
  | none => exact hang
  | some r => exact ofExcept r

theorem readAt (offset len : Nat) :
    ReadsOnly path (storage (.readAt path offset len) : Io M StorageError Bytes) :=
  ⟨rfl, fun _ => trivial⟩

theorem len : ReadsOnly path (storage (.len path) : Io M StorageError Nat) :=
  ⟨rfl, fun _ => trivial⟩

theorem bind {p : Io M ε α} {f : α → Io M ε β} (hp : ReadsOnly path p)
    (hf : ∀ a, ReadsOnly path (f a)) : ReadsOnly path (p >>= f) := by
  refine ProgReads.bind hp fun r => ?_
  cases r with
  | ok a => exact hf a
  | error err => exact trivial

theorem mapError {p : Io M ε α} (hp : ReadsOnly path p) (f : ε → ε') :
    ReadsOnly path (p.mapError f) := ProgReads.bind hp fun _ => trivial

theorem ite {c : Prop} [Decidable c] {p q : Io M ε α} (hp : ReadsOnly path p)
    (hq : ReadsOnly path q) : ReadsOnly path (if c then p else q) := by
  by_cases h : c
  · rw [if_pos h]
    exact hp
  · rw [if_neg h]
    exact hq

end ReadsOnly

/-- A program that answers on any storage answers on the bytes of a file. -/
theorem runOn_total {p : Io Unit ε α} {Q : α → Prop} {R : ε → Prop}
    (h : wpE AnyStorage False False (fun _ => True) p (fun a _ => Q a) (fun err _ => R err) ((), ()))
    (c : Option Bytes) : ∃ r, runOn c p = some r ∧ ∀ a, r = .ok a → Q a := by
  have hm := memSem_memRun (F := AnyStorage) (M := Unit) (m := fun o u => (fileAnswer c o, u))
    fun _ _ => trivial
  rw [runOn]
  cases he : eval (memRun fun o u => (fileAnswer c o, u)) p.run ((), ()) with
  | none => exact absurd (hangs_of_eval hm he) (wp_not_hangs (wpE_iff.mp h))
  | some x =>
    refine ⟨x.1, rfl, fun a ha => ?_⟩
    have hpost := (wp_completes (wpE_iff.mp h) (completes_of_eval hm he)).2
    rw [ha] at hpost
    exact hpost

/-- **The simulator answers from the bytes of the file, and stays as it is.** -/
theorem SimFs.exec_runOn {path : Path} {p : Io Unit ε α} (h : ReadsOnly path p) (s : SimFs) :
    s.exec p () = (runOn (s.contents path) p).map fun r => (r, s, ()) := by
  have hrun : ∀ q : Prog (Eff StorageOp Unit) (Eff.Resp StorageOp.Resp) (Except ε α),
      ProgReads path q → eval (memRun run) q (s, ()) =
        (eval (memRun fun o u => (fileAnswer (s.contents path) o, u)) q ((), ())).map
          fun x => (x.1, s, ()) := by
    intro q
    induction q with
    | ret a => exact fun _ => rfl
    | hang => exact fun _ => rfl
    | op o k ih =>
      intro hq
      cases o with
      | io o =>
        show eval (memRun run) (k (run o s).1) ((run o s).2, ()) = _
        rw [run_reads hq.1]
        exact ih _ (hq.2 _)
      | upd f => exact ih () (hq ())
      | fits c => exact ih () hq
  rw [runOn, Option.map_map]
  exact hrun p.run h

end AccretionDb
