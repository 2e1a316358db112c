import AccretionDb.Lib.Act
import AccretionDb.Lib.Parse

/-!
# Computations that may panic

Arithmetic on words of 64 bits, indices and slices, each with the check that a machine
makes: `none` is a panic.  A `Scanner` is a parser that keeps the whole buffer and a place
in it and computes with these operations.  `Follows q p` says that `q` never panics and
that `p` answers the same; the rules of this module show it of a scanner from its parts,
and so a format that was described by a parser has one that never panics.
-/

namespace CrashLogic

/-! ### Checked operations -/

namespace Checked

/-- `a - b` -/
def sub (a b : Nat) : Option Nat := if b ≤ a then some (a - b) else none

/-- `a + b` -/
def add (a b : Nat) : Option Nat := if a + b < 2 ^ 64 then some (a + b) else none

/-- `a % m` -/
def rem (a m : Nat) : Option Nat := if m = 0 then none else some (a % m)

/-- `b[lo..hi]` -/
def range (b : Bytes) (lo hi : Nat) : Option Bytes :=
  if lo ≤ hi ∧ hi ≤ b.length then some (slice b lo (hi - lo)) else none

/-- A slice as an array of `w` bytes. -/
def array (w : Nat) (b : Bytes) : Option Bytes := if b.length = w then some b else none

theorem sub_of_le {a b : Nat} (h : b ≤ a) : sub a b = some (a - b) := if_pos h

theorem add_of_lt {a b : Nat} (h : a + b < 2 ^ 64) : add a b = some (a + b) := if_pos h

theorem rem_of_ne {a m : Nat} (h : m ≠ 0) : rem a m = some (a % m) := if_neg h

theorem range_of_le {b : Bytes} {lo hi : Nat} (h : lo ≤ hi) (h' : hi ≤ b.length) :
    range b lo hi = some (slice b lo (hi - lo)) := if_pos ⟨h, h'⟩

/-- `b[..n]` -/
theorem range_zero {b : Bytes} {n : Nat} (h : n ≤ b.length) : range b 0 n = some (b.take n) := by
  rw [range_of_le (Nat.zero_le n) h, slice, List.drop_zero, Nat.sub_zero]

/-- `b[n..]` -/
theorem range_length {b : Bytes} {n : Nat} (h : n ≤ b.length) :
    range b n b.length = some (b.drop n) := by
  have hall : (b.drop n).length ≤ b.length - n := Nat.le_of_eq List.length_drop
  rw [range_of_le h (Nat.le_refl _), slice, List.take_of_length_le hall]

theorem array_of_length {w : Nat} {b : Bytes} (h : b.length = w) : array w b = some b := if_pos h

/-- `b[..b.len() - n]` -/
def strip (n : Nat) (b : Bytes) : Option Bytes := do
  let stop ← sub b.length n
  range b 0 stop

theorem strip_of_le {n : Nat} {b : Bytes} (h : n ≤ b.length) :
    strip n b = some (b.take (b.length - n)) := by
  rw [strip, sub_of_le h]
  exact range_zero (Nat.sub_le ..)

/-- `b.split_at(b.len() - n)`, with the back as a number. -/
def splitNat (n : Nat) (b : Bytes) : Option (Bytes × Nat) := do
  let mid ← sub b.length n
  let front ← range b 0 mid
  let back ← range b mid b.length
  let back ← array n back
  pure (front, leNat back)

theorem splitNat_of_le {n : Nat} {b : Bytes} (h : n ≤ b.length) :
    splitNat n b = some (b.take (b.length - n), leNat (b.drop (b.length - n))) := by
  have hback : (b.drop (b.length - n)).length = n := by
    rw [List.length_drop]
    omega
  rw [splitNat, sub_of_le h]
  show (range b 0 (b.length - n) >>= _) = _
  rw [range_zero (Nat.sub_le ..), range_length (Nat.sub_le ..)]
  show (array n (b.drop (b.length - n)) >>= _) = _
  rw [array_of_length hback]
  rfl

/-- All elements pass a check that may panic; the first that fails ends the walk. -/
def all {α : Type} (f : α → Option Bool) : List α → Option Bool
  | [] => some true
  | a :: as => do
    let ok ← f a
    if ok then all f as else some false

theorem all_of_forall {α : Type} {f : α → Option Bool} {g : α → Bool} {as : List α}
    (h : ∀ a ∈ as, f a = some (g a)) : all f as = some (as.all g) := by
  induction as with
  | nil => rfl
  | cons a as ih =>
    have hrest := ih fun x hx => h x (List.mem_cons_of_mem a hx)
    rw [all, h a List.mem_cons_self, List.all_cons]
    cases hg : g a with
    | true => simpa using hrest
    | false => rfl

end Checked

/-! ### Scanners -/

/-- A buffer and a place in it. -/
structure Reading where
  buf : Bytes
  pos : Nat

/-- A parser with a place in its buffer that may panic. -/
abbrev Scanner (ε α : Type) := StateT Reading (ExceptT ε Option) α

namespace Scanner

variable {ε α β : Type} {short : Nat → Nat → ε}

/-- A value, or a panic. -/
def check (x : Option α) : Scanner ε α := fun s => x.map fun a => .ok (a, s)

/-- How many bytes are left. -/
def remaining : Scanner ε Nat := do
  let s ← get
  check (Checked.sub s.buf.length s.pos)

/-- Take `n` bytes; `short` is the error for `n` wanted bytes of which fewer are left. -/
def take (short : Nat → Nat → ε) (n : Nat) : Scanner ε Bytes := do
  let left ← remaining
  if left < n then throw (short n left)
  else do
    let s ← get
    let stop ← check (Checked.add s.pos n)
    let out ← check (Checked.range s.buf s.pos stop)
    set ({ s with pos := stop } : Reading)
    pure out

/-- A little-endian field of `w` bytes. -/
def nat (short : Nat → Nat → ε) (w : Nat) : Scanner ε Nat := do
  let x ← take short w
  let x ← check (Checked.array w x)
  pure (leNat x)

/-- The first of one byte taken. -/
def byte (short : Nat → Nat → ε) : Scanner ε Nat := do
  let x ← take short 1
  let b ← check x[0]?
  pure b.toNat

/-- `n` times the same. -/
def times (q : Scanner ε α) : Nat → Scanner ε (List α)
  | 0 => pure []
  | n + 1 => do
    let a ← q
    let as ← times q n
    pure (a :: as)

/-- The same until nothing is left; a loop that takes more rounds counts as one that
never ends. -/
def many (q : Scanner ε α) : Nat → Scanner ε (List α)
  | 0 => check none
  | rounds + 1 => do
    let left ← remaining
    if left > 0 then do
      let a ← q
      let as ← many q rounds
      pure (a :: as)
    else pure []

/-- Scan a buffer from its start. -/
def scan (q : Scanner ε α) (buf : Bytes) : Option (Except ε α) :=
  Option.map (Except.map Prod.fst) (q ⟨buf, 0⟩)

theorem bind_eq (q : Scanner ε α) (f : α → Scanner ε β) (s : Reading) :
    (q >>= f) s = match q s with
      | some (.ok (a, s')) => f a s'
      | some (.error e) => some (.error e)
      | none => none := by
  show ((q s : ExceptT ε Option _) >>= fun x => f x.1 x.2) = _
  cases h : q s with
  | none => rfl
  | some r =>
    cases r with
    | error e => rfl
    | ok x => rfl

theorem get_bind (f : Reading → Scanner ε α) (s : Reading) : (get >>= f) s = f s s := by
  rw [bind_eq]
  rfl

theorem check_bind {x : Option α} {a : α} (h : x = some a) (f : α → Scanner ε β) :
    (check x >>= f) = f a := by
  rw [h]
  rfl

end Scanner

/-! ### Scanners that follow a parser -/

section Follows

variable {ε α β : Type} {short : Nat → Nat → ε}

/-- The scanner at `pos` does not panic, and it answers what the parser answers on the rest
of the buffer. -/
inductive Same (buf : Bytes) (pos : Nat) :
    Option (Except ε (α × Reading)) → Except ε (α × Bytes) → Prop
  | error (e : ε) : Same buf pos (some (.error e)) (.error e)
  | ok (a : α) {stop : Nat} (hle : pos ≤ stop) (hstop : stop ≤ buf.length) :
      Same buf pos (some (.ok (a, ⟨buf, stop⟩))) (.ok (a, buf.drop stop))

/-- **The scanner never panics and does what the parser does.** -/
def Follows (q : Scanner ε α) (p : Parser ε α) : Prop :=
  ∀ buf pos, pos ≤ buf.length → buf.length < 2 ^ 64 →
    Same buf pos (q ⟨buf, pos⟩) (p (buf.drop pos))

namespace Follows

theorem pure (a : α) : Follows (pure a : Scanner ε α) (pure a) :=
  fun _ pos hpos _ => .ok a (Nat.le_refl pos) hpos

theorem throw (e : ε) : Follows (throw e : Scanner ε α) (throw e) := fun _ _ _ _ => .error e

theorem bind {q : Scanner ε α} {p : Parser ε α} {g : α → Scanner ε β} {f : α → Parser ε β}
    (hq : Follows q p) (hg : ∀ a, Follows (g a) (f a)) : Follows (q >>= g) (p >>= f) := by
  intro buf pos hpos hbuf
  have h := hq buf pos hpos hbuf
  have hp : (p >>= f) (buf.drop pos) = (p (buf.drop pos)).bind fun r => f r.1 r.2 := rfl
  rw [Scanner.bind_eq, hp]
  generalize q ⟨buf, pos⟩ = x at h
  generalize p (buf.drop pos) = y at h
  cases h with
  | error e => exact .error e
  | @ok a stop hle hstop =>
    show Same buf pos (g a ⟨buf, stop⟩) (f a (buf.drop stop))
    have h' := hg a buf stop hstop hbuf
    generalize g a ⟨buf, stop⟩ = x' at h'
    generalize f a (buf.drop stop) = y' at h'
    cases h' with
    | error e => exact .error e
    | ok b hle' hstop' => exact .ok b (Nat.le_trans hle hle') hstop'

theorem ite {c : Prop} [Decidable c] {q q' : Scanner ε α} {p p' : Parser ε α} (h : Follows q p)
    (h' : Follows q' p') : Follows (if c then q else q') (if c then p else p') := by
  by_cases hc : c
  · rw [if_pos hc, if_pos hc]
    exact h
  · rw [if_neg hc, if_neg hc]
    exact h'

theorem remaining_eq {buf : Bytes} {pos : Nat} (hpos : pos ≤ buf.length)
    (f : Nat → Scanner ε α) :
    (Scanner.remaining >>= f) ⟨buf, pos⟩ = f (buf.length - pos) ⟨buf, pos⟩ := by
  rw [Scanner.bind_eq]
  have hrem : (Scanner.remaining : Scanner ε Nat) ⟨buf, pos⟩ =
      some (.ok (buf.length - pos, ⟨buf, pos⟩)) := by
    show (Checked.sub buf.length pos).map _ = _
    rw [Checked.sub_of_le hpos]
    rfl
  rw [hrem]

theorem take (n : Nat) : Follows (Scanner.take short n) (Parser.take short n) := by
  intro buf pos hpos hbuf
  have hlen : (buf.drop pos).length = buf.length - pos := List.length_drop
  rw [Scanner.take, remaining_eq hpos, Parser.take]
  by_cases hlt : buf.length - pos < n
  · -- too short for both
    have hnone : takeBytes n (buf.drop pos) = none := by
      rw [takeBytes, if_neg (by omega)]
    rw [if_pos hlt, hnone, hlen]
    exact .error _
  · have hstop : pos + n ≤ buf.length := by omega
    have hsome : takeBytes n (buf.drop pos) = some (slice buf pos n, buf.drop (pos + n)) := by
      rw [takeBytes, if_pos (by omega), slice, List.drop_drop]
    have hadd : Checked.add pos n = some (pos + n) := Checked.add_of_lt (by omega)
    have hrange : Checked.range buf pos (pos + n) = some (slice buf pos n) := by
      rw [Checked.range_of_le (Nat.le_add_right pos n) hstop, Nat.add_sub_cancel_left]
    rw [if_neg hlt, hsome, Scanner.get_bind, Scanner.check_bind hadd, Scanner.check_bind hrange]
    exact .ok _ (Nat.le_add_right pos n) hstop

/-- What was taken is as long as was asked for. -/
theorem take_bind {n : Nat} {g : Bytes → Scanner ε α} {f : Bytes → Parser ε α}
    (h : ∀ x : Bytes, x.length = n → Follows (g x) (f x)) :
    Follows (Scanner.take short n >>= g) (Parser.take short n >>= f) := by
  intro buf pos hpos hbuf
  have ht : Same buf pos (Scanner.take short n _) _ := take n buf pos hpos hbuf
  have hp : (Parser.take short n >>= f) (buf.drop pos) =
      (Parser.take short n (buf.drop pos)).bind fun r => f r.1 r.2 := rfl
  rw [Scanner.bind_eq, hp]
  generalize hq : Scanner.take short n ⟨buf, pos⟩ = x at ht
  generalize hy : Parser.take short n (buf.drop pos) = y at ht
  cases ht with
  | error e => exact .error e
  | @ok a stop hle hstop =>
    show Same buf pos (g a ⟨buf, stop⟩) (f a (buf.drop stop))
    have h' := h a (Parser.take_ok hy).2 buf stop hstop hbuf
    generalize g a ⟨buf, stop⟩ = x' at h'
    generalize f a (buf.drop stop) = y' at h'
    cases h' with
    | error e => exact .error e
    | ok b hle' hstop' => exact .ok b (Nat.le_trans hle hle') hstop'

theorem nat (w : Nat) : Follows (Scanner.nat short w) (Parser.nat short w) := by
  refine take_bind fun x hx => ?_
  rw [Scanner.check_bind (Checked.array_of_length hx)]
  exact pure (leNat x)

theorem byte : Follows (Scanner.byte short) (Parser.nat short 1) := by
  refine take_bind fun x hx => ?_
  obtain ⟨b, rfl⟩ := List.length_eq_one_iff.mp hx
  exact pure b.toNat

theorem times {q : Scanner ε α} {p : Parser ε α} (h : Follows q p) :
    ∀ n, Follows (Scanner.times q n) (Parser.times p n) := by
  intro n
  induction n with
  | zero => exact pure []
  | succ n ih => exact h.bind fun a => ih.bind fun as => pure (a :: as)

/-- From the start of a buffer. -/
theorem scan_eq {q : Scanner ε α} {p : Parser ε α} (h : Follows q p) {buf : Bytes}
    (hbuf : buf.length < 2 ^ 64) : Scanner.scan q buf = some ((p.run buf).map Prod.fst) := by
  have hs := h buf 0 (Nat.zero_le _) hbuf
  rw [List.drop_zero] at hs
  show Option.map _ (q ⟨buf, 0⟩) = some ((p buf).map Prod.fst)
  generalize q ⟨buf, 0⟩ = x at hs
  generalize p buf = y at hs
  cases hs with
  | error e => rfl
  | ok a hle hstop => rfl

/-- **The loop ends**: every round takes something, so one round more than the buffer has
bytes is enough. -/
theorem scan_many {q : Scanner ε α} {p : Parser ε α} (h : Follows q p)
    (hlt : ∀ b a rest, p b = .ok (a, rest) → rest.length < b.length) {buf : Bytes}
    (hbuf : buf.length < 2 ^ 64) :
    Scanner.scan (Scanner.many q (buf.length + 1)) buf = some (Parser.many p buf.length buf) := by
  have hloop : ∀ fuel pos, pos ≤ buf.length → buf.length - pos ≤ fuel →
      Option.map (Except.map Prod.fst) (Scanner.many q (fuel + 1) ⟨buf, pos⟩) =
        some (Parser.many p fuel (buf.drop pos)) := by
    intro fuel
    induction fuel with
    | zero =>
      intro pos hpos hle
      have hno : ¬ buf.length - pos > 0 := by omega
      rw [Scanner.many, remaining_eq hpos, if_neg hno]
      rfl
    | succ fuel ih =>
      intro pos hpos hle
      have hlen : (buf.drop pos).length = buf.length - pos := List.length_drop
      rw [Scanner.many, remaining_eq hpos, Parser.many]
      by_cases hend : buf.drop pos = []
      · have hno : ¬ buf.length - pos > 0 := by
          rw [← hlen, hend]
          exact Nat.lt_irrefl 0
        rw [if_neg hno, if_pos hend]
        rfl
      · have hmore : buf.length - pos > 0 := by
          rw [← hlen]
          exact List.length_pos_iff.mpr hend
        have hs := h buf pos hpos hbuf
        rw [if_pos hmore, if_neg hend, Scanner.bind_eq]
        generalize q ⟨buf, pos⟩ = x at hs
        generalize hy : p (buf.drop pos) = y at hs
        cases hs with
        | error e => rfl
        | @ok a stop hle' hstop =>
          have hshort := hlt _ _ _ hy
          rw [hlen, List.length_drop] at hshort
          have hrest := ih stop hstop (by omega)
          show Option.map _ ((Scanner.many q (fuel + 1) >>= fun as => Pure.pure (a :: as))
              ⟨buf, stop⟩) =
            some (Parser.many p fuel (buf.drop stop) >>= fun as => Pure.pure (a :: as))
          rw [Scanner.bind_eq]
          generalize Scanner.many q (fuel + 1) ⟨buf, stop⟩ = x' at hrest
          generalize Parser.many p fuel (buf.drop stop) = y' at hrest
          cases x' with
          | none => cases hrest
          | some r =>
            obtain rfl := Option.some.inj hrest
            cases r with
            | error e => rfl
            | ok z => rfl
  have := hloop buf.length 0 (Nat.zero_le _) (Nat.sub_le _ _)
  rwa [List.drop_zero] at this

end Follows

end Follows

/-! ### Checked results in a program -/

namespace Act

variable {Op : Type} {Resp : Op → Type} {M ε α β : Type}

/-- Go on with a value; where there is none the program panics. -/
def unwrap (x : Option α) : Act Op Resp M ε α :=
  match x with
  | some a => pure a
  | none => hang

/-- Go on with a result. -/
def checked (r : Option (Except ε α)) : Act Op Resp M ε α :=
  match r with
  | some r => ofExcept r
  | none => hang

theorem unwrap_bind {x : Option α} {a : α} (h : x = some a) (f : α → Act Op Resp M ε β) :
    (unwrap x >>= f) = f a := by
  rw [h]
  rfl

theorem unwrap_none_bind {x : Option α} (h : x = none) (f : α → Act Op Resp M ε β) :
    (unwrap x >>= f) = hang := by
  rw [h]
  rfl

theorem checked_eq {x : Option (Except ε α)} {r : Except ε α} (h : x = some r) :
    (checked x : Act Op Resp M ε α) = ofExcept r := by
  rw [h]
  rfl

/-- Two continuations that agree on the result. -/
theorem ofExcept_bind_congr {r : Except ε α} {f g : α → Act Op Resp M ε β}
    (h : ∀ a, r = .ok a → f a = g a) : (ofExcept r >>= f) = (ofExcept r >>= g) := by
  cases r with
  | ok a => exact h a rfl
  | error e => rfl

end Act

end CrashLogic
