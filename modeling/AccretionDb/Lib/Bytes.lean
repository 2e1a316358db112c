import Mathlib.Data.List.TakeDrop
import Mathlib.Data.Nat.Bitwise
import Mathlib.Tactic.Ring

/-!
# Little-endian fields and byte ranges

`leBytes w n` is the low `w` bytes of `n`, least significant first, as a field of
`w` bytes holds it; what does not fit is lost (`leNat_leBytes`).  `slice b off n`
is the range of `n` bytes at `off`.  A decoder reads fields out of ranges, an
encoder appends fields, and `slice_append_right` with `slice_append_left` says
that the two meet.
-/

namespace CrashLogic

abbrev Bytes := List UInt8

/-- The low `w` bytes of `n`, least significant byte first. -/
def leBytes : Nat → Nat → Bytes
  | 0, _ => []
  | w + 1, n => UInt8.ofNat n :: leBytes w (n / 256)

/-- The number a little-endian field holds. -/
def leNat : Bytes → Nat
  | [] => 0
  | b :: bs => b.toNat + 256 * leNat bs

@[simp] theorem length_leBytes (w : Nat) : ∀ n, (leBytes w n).length = w := by
  induction w with
  | zero => exact fun _ => rfl
  | succ w ih => exact fun n => congrArg Nat.succ (ih (n / 256))

/-- **A field keeps a number modulo its size.** -/
theorem leNat_leBytes (w : Nat) : ∀ n, leNat (leBytes w n) = n % 256 ^ w := by
  induction w with
  | zero => exact fun n => (Nat.mod_one n).symm
  | succ w ih =>
    intro n
    have hb : (UInt8.ofNat n).toNat = n % 256 := by simp
    rw [leBytes, leNat, ih, hb, Nat.pow_succ', Nat.mod_mul]

theorem leNat_leBytes_of_lt {w n : Nat} (h : n < 256 ^ w) : leNat (leBytes w n) = n := by
  rw [leNat_leBytes, Nat.mod_eq_of_lt h]

theorem leNat_lt (b : Bytes) : leNat b < 256 ^ b.length := by
  induction b with
  | nil => exact Nat.one_pos
  | cons x b ih =>
    have hx : x.toNat < 256 := x.toNat_lt
    have hp : 256 ^ (b.length + 1) = 256 * 256 ^ b.length := Nat.pow_succ'
    rw [leNat, List.length_cons, hp]
    omega

/-- A field is the only encoding of the number it holds. -/
theorem leBytes_leNat (b : Bytes) : leBytes b.length (leNat b) = b := by
  induction b with
  | nil => rfl
  | cons x b ih =>
    have hx : x.toNat < 256 := x.toNat_lt
    have hhead : UInt8.ofNat (x.toNat + 256 * leNat b) = x := by
      apply UInt8.toNat_inj.mp
      rw [UInt8.toNat_ofNat']
      omega
    have htail : (x.toNat + 256 * leNat b) / 256 = leNat b := by omega
    rw [List.length_cons, leBytes, leNat, hhead, htail, ih]

theorem leNat_inj {a b : Bytes} (hl : a.length = b.length) (h : leNat a = leNat b) : a = b := by
  rw [← leBytes_leNat a, ← leBytes_leNat b, hl, h]

/-- The range of `n` bytes at `off`, short where the buffer ends. -/
def slice (b : Bytes) (off n : Nat) : Bytes := (b.drop off).take n

theorem length_slice (b : Bytes) (off n : Nat) :
    (slice b off n).length = min n (b.length - off) := by
  rw [slice, List.length_take, List.length_drop]

theorem length_slice_of_le {b : Bytes} {off n : Nat} (h : off + n ≤ b.length) :
    (slice b off n).length = n := by
  rw [length_slice]
  omega

@[simp] theorem slice_zero (b : Bytes) (off : Nat) : slice b off 0 = [] := rfl

theorem slice_all (b : Bytes) : slice b 0 b.length = b := by
  rw [slice, List.drop_zero, List.take_length]

theorem slice_append_right (a b : Bytes) (off n : Nat) :
    slice (a ++ b) (a.length + off) n = slice b off n := by
  rw [slice, ← List.drop_drop, List.drop_left, slice]

theorem slice_append_left {a b : Bytes} {off n : Nat} (h : off + n ≤ a.length) :
    slice (a ++ b) off n = slice a off n := by
  rw [slice, slice, List.drop_append_of_le_length (by omega),
    List.take_append_of_le_length (by rw [List.length_drop]; omega)]

/-- The range right behind a prefix, up to the end of what follows it. -/
theorem slice_mid (a b c : Bytes) : slice (a ++ b ++ c) a.length b.length = b := by
  rw [slice, List.append_assoc, List.drop_left, List.take_left]

/-- Flip bit `i` of a byte string, counting from the low bit of the first byte. -/
def flipBit (b : Bytes) (i : Nat) : Bytes :=
  b.modify (i / 8) fun x => x ^^^ (1 <<< UInt8.ofNat (i % 8))

@[simp] theorem length_flipBit (b : Bytes) (i : Nat) : (flipBit b i).length = b.length :=
  List.length_modify ..

theorem modify_append_right {α : Type} (f : α → α) (a b : List α) (i : Nat) :
    (a ++ b).modify (a.length + i) f = a ++ b.modify i f := by
  induction a with
  | nil => rw [List.nil_append, List.length_nil, Nat.zero_add, List.nil_append]
  | cons x a ih =>
    have hi : (x :: a).length + i = a.length + i + 1 := by
      rw [List.length_cons]
      omega
    rw [hi, List.cons_append, List.modify_succ_cons, ih, List.cons_append]

/-- A flip in the second part leaves the first alone. -/
theorem flipBit_append_right (a b : Bytes) (i : Nat) :
    flipBit (a ++ b) (a.length * 8 + i) = a ++ flipBit b i := by
  have hq : (a.length * 8 + i) / 8 = a.length + i / 8 := by omega
  have hr : (a.length * 8 + i) % 8 = i % 8 := by omega
  rw [flipBit, flipBit, hq, hr, modify_append_right]

theorem modify_append_left {α : Type} (f : α → α) (a b : List α) {i : Nat} (h : i < a.length) :
    (a ++ b).modify i f = a.modify i f ++ b := by
  rw [List.modify_eq_take_cons_drop h,
    List.modify_eq_take_cons_drop (by rw [List.length_append]; omega),
    List.take_append_of_le_length (by omega), List.drop_append_of_le_length (by omega),
    List.getElem_append_left h, List.append_assoc, List.cons_append]

/-- A flip in the first part leaves the second alone. -/
theorem flipBit_append_left {a : Bytes} (b : Bytes) {i : Nat} (h : i < a.length * 8) :
    flipBit (a ++ b) i = flipBit a i ++ b :=
  modify_append_left _ a b (by omega)

theorem flipBit_cons_high (x : UInt8) (b : Bytes) (i : Nat) :
    flipBit (x :: b) (8 + i) = x :: flipBit b i :=
  flipBit_append_right [x] b i

/-- Exclusive or works on the low byte and on the rest apart. -/
theorem xor_two_pow_mul_add (w n m : Nat) {x y : Nat} (hx : x < 2 ^ w) (hy : y < 2 ^ w) :
    (x + 2 ^ w * n) ^^^ (y + 2 ^ w * m) = (x ^^^ y) + 2 ^ w * (n ^^^ m) := by
  have hpos : 0 < 2 ^ w := Nat.two_pow_pos w
  have hdiv : ((x + 2 ^ w * n) ^^^ (y + 2 ^ w * m)) / 2 ^ w = n ^^^ m := by
    rw [Nat.xor_div_two_pow, Nat.add_mul_div_left _ _ hpos, Nat.add_mul_div_left _ _ hpos,
      Nat.div_eq_of_lt hx, Nat.div_eq_of_lt hy, Nat.zero_add, Nat.zero_add]
  have hmod : ((x + 2 ^ w * n) ^^^ (y + 2 ^ w * m)) % 2 ^ w = x ^^^ y := by
    rw [Nat.xor_mod_two_pow, Nat.add_mul_mod_self_left, Nat.add_mul_mod_self_left,
      Nat.mod_eq_of_lt hx, Nat.mod_eq_of_lt hy]
  rw [← hdiv, ← hmod, Nat.mod_add_div]

theorem toNat_shiftLeft_one {k : Nat} (h : k < 8) :
    ((1 : UInt8) <<< UInt8.ofNat k).toNat = 2 ^ k := by
  obtain rfl | rfl | rfl | rfl | rfl | rfl | rfl | rfl :
      k = 0 ∨ k = 1 ∨ k = 2 ∨ k = 3 ∨ k = 4 ∨ k = 5 ∨ k = 6 ∨ k = 7 := by omega
  all_goals rfl

/-- **Flipping a bit of a field is exclusive or with its weight.** -/
theorem leNat_flipBit {b : Bytes} : ∀ {i : Nat}, i < b.length * 8 →
    leNat (flipBit b i) = leNat b ^^^ 2 ^ i := by
  induction b with
  | nil => exact fun h => absurd h (Nat.not_lt_zero _)
  | cons x b ih =>
    intro i hi
    have hx : x.toNat < 2 ^ 8 := x.toNat_lt
    by_cases h8 : i < 8
    · have hbit : 2 ^ i < 2 ^ 8 := Nat.pow_lt_pow_right (by omega) h8
      have hflip : flipBit (x :: b) i = (x ^^^ 1 <<< UInt8.ofNat i) :: b := by
        rw [flipBit, Nat.div_eq_of_lt h8, Nat.mod_eq_of_lt h8, List.modify_zero_cons]
      have hxor := xor_two_pow_mul_add 8 (leNat b) 0 hx hbit
      rw [Nat.mul_zero, Nat.add_zero, Nat.xor_zero] at hxor
      rw [hflip, leNat, leNat, UInt8.toNat_xor, toNat_shiftLeft_one h8]
      exact hxor.symm
    · obtain ⟨j, rfl⟩ : ∃ j, i = 8 + j := ⟨i - 8, by omega⟩
      have hxor := xor_two_pow_mul_add 8 (leNat b) (2 ^ j) hx (Nat.two_pow_pos 8)
      rw [Nat.zero_add, Nat.xor_zero, ← Nat.pow_add] at hxor
      rw [flipBit_cons_high, leNat, leNat, ih (by rw [List.length_cons] at hi; omega)]
      exact hxor.symm

/-- Setting a clear bit adds its weight, clearing a set one takes it away. -/
theorem xor_two_pow (n i : Nat) :
    n ^^^ 2 ^ i = if n.testBit i then n - 2 ^ i else n + 2 ^ i := by
  have hlow : n % 2 ^ i < 2 ^ i := Nat.mod_lt _ (Nat.two_pow_pos i)
  have hxor := xor_two_pow_mul_add i (n / 2 ^ i) 1 hlow (Nat.two_pow_pos i)
  rw [Nat.zero_add, Nat.mul_one, Nat.xor_zero, Nat.mod_add_div] at hxor
  have hn := Nat.mod_add_div n (2 ^ i)
  have hbit : n.testBit i = decide (n / 2 ^ i % 2 = 1) := Nat.testBit_eq_decide_div_mod_eq
  rw [hxor, hbit]
  rcases Nat.mod_two_eq_zero_or_one (n / 2 ^ i) with h | h
  · rw [Nat.xor_one_of_even (Nat.even_iff.mpr h), if_neg (by rw [h]; decide), Nat.mul_add,
      Nat.mul_one]
    omega
  · have hne : n / 2 ^ i ≠ 0 := by
      intro h0
      rw [h0] at h
      cases h
    obtain ⟨q, hq⟩ := Nat.exists_eq_succ_of_ne_zero hne
    rw [Nat.xor_one_of_odd (Nat.odd_iff.mpr h), if_pos (by rw [h]; decide), hq, Nat.succ_sub_one]
    rw [hq, Nat.mul_succ] at hn
    omega

/-! ### A cursor

Decoders walk a buffer from left to right.  `takeBytes` is one step of such a
walk, and it fails where the buffer is too short. -/

/-- Split `n` bytes off the front. -/
def takeBytes (n : Nat) (b : Bytes) : Option (Bytes × Bytes) :=
  if n ≤ b.length then some (b.take n, b.drop n) else none

theorem takeBytes_append (a b : Bytes) : takeBytes a.length (a ++ b) = some (a, b) := by
  rw [takeBytes, if_pos (by simp), List.take_left, List.drop_left]

theorem takeBytes_eq_some {n : Nat} {b x r : Bytes} (h : takeBytes n b = some (x, r)) :
    b = x ++ r ∧ x.length = n := by
  rw [takeBytes] at h
  split at h
  · rename_i hn
    obtain ⟨rfl, rfl⟩ := Prod.mk.inj (Option.some.inj h)
    exact ⟨(List.take_append_drop n b).symm, List.length_take_of_le hn⟩
  · cases h

end CrashLogic
