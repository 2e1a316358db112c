import AccretionDb.Lib.Bytes

/-! # Checksums

`crc32fast::hash` and `xxh3_128` come from libraries.  Nothing is assumed of them
here but that they are functions; `Hashing` names the pair, and every module that
hashes takes it as an instance argument.
-/

namespace AccretionDb

open CrashLogic

class Hashing where
  crc32 : Bytes → UInt32
  xxh3_128 : Bytes → BitVec 128

/-- One bit of the reflected IEEE polynomial division. -/
def crcBit (c : UInt32) : UInt32 :=
  if c &&& 1 = 1 then (c >>> 1) ^^^ 0xEDB88320 else c >>> 1

def crcByte (c : UInt32) (b : UInt8) : UInt32 :=
  crcBit (crcBit (crcBit (crcBit (crcBit (crcBit (crcBit (crcBit (c ^^^ b.toUInt32))))))))

/-- CRC-32 as `crc32fast` computes it. -/
def crc32Ieee (b : Bytes) : UInt32 := b.foldl crcByte 0xFFFFFFFF ^^^ 0xFFFFFFFF

/-- The engine's CRC-32 with any digest. -/
@[reducible] def Hashing.ieee (digest : Bytes → BitVec 128) : Hashing where
  crc32 := crc32Ieee
  xxh3_128 := digest

/-- CRC-32, and the XXH3 digest of the empty input: enough to run the engine on
the empty key. -/
@[reducible] def Hashing.emptyKey : Hashing where
  crc32 := crc32Ieee
  xxh3_128 _ := 0x99aa06d3014798d86001c324468d497f

/-- The check value of CRC-32: the digest of `123456789`. -/
example : crc32Ieee [49, 50, 51, 52, 53, 54, 55, 56, 57] = 0xCBF43926 := by
  decide +kernel

/-! ### What CRC-32 always detects -/

theorem and_one_eq_one (c : UInt32) : c &&& 1 = 1 ↔ c.toNat % 2 = 1 := by
  have h1 : (c &&& 1).toNat = c.toNat % 2 := by
    rw [UInt32.toNat_and]
    exact Nat.and_one_is_mod c.toNat
  rw [← h1]
  exact UInt32.toNat_inj.symm

theorem toNat_shiftRight_one (c : UInt32) : (c >>> 1).toNat = c.toNat / 2 := by
  rw [UInt32.toNat_shiftRight]
  exact Nat.shiftRight_eq_div_pow c.toNat 1

/-- The polynomial's top bit tells whether the step divided. -/
theorem crcBit_top (c : UInt32) : 2 ^ 31 ≤ (crcBit c).toNat ↔ c.toNat % 2 = 1 := by
  have hc : (c >>> 1).toNat < 2 ^ 31 := by
    have := c.toNat_lt
    rw [toNat_shiftRight_one]
    omega
  rw [crcBit]
  by_cases h : c &&& 1 = 1
  · have hbit : ((c >>> 1) ^^^ 0xEDB88320).toNat.testBit 31 = true := by
      rw [UInt32.toNat_xor, Nat.testBit_xor, Nat.testBit_lt_two_pow hc]
      decide
    rw [if_pos h]
    exact ⟨fun _ => (and_one_eq_one c).mp h, fun _ => Nat.ge_two_pow_of_testBit hbit⟩
  · rw [if_neg h]
    have h' := mt (and_one_eq_one c).mpr h
    exact ⟨fun h2 => absurd h2 (by omega), fun h2 => absurd h2 h'⟩

theorem crcBit_inj {c d : UInt32} (h : crcBit c = crcBit d) : c = d := by
  have hpar : c.toNat % 2 = 1 ↔ d.toNat % 2 = 1 := by rw [← crcBit_top, ← crcBit_top, h]
  have hhalf : c >>> 1 = d >>> 1 := by
    simp only [crcBit, and_one_eq_one] at h
    by_cases hc : c.toNat % 2 = 1
    · rw [if_pos hc, if_pos (hpar.mp hc)] at h
      exact (UInt32.xor_left_inj _).mp h
    · rwa [if_neg hc, if_neg (mt hpar.mpr hc)] at h
  have hdiv : c.toNat / 2 = d.toNat / 2 := by
    rw [← toNat_shiftRight_one, ← toNat_shiftRight_one, hhalf]
  apply UInt32.toNat_inj.mp
  omega

theorem crcByte_inj {c d : UInt32} {x y : UInt8} (h : crcByte c x = crcByte d y) :
    c ^^^ x.toUInt32 = d ^^^ y.toUInt32 := by
  simp only [crcByte] at h
  iterate 8 replace h := crcBit_inj h
  exact h

theorem foldl_crcByte_inj (b : Bytes) :
    ∀ {c d : UInt32}, b.foldl crcByte c = b.foldl crcByte d → c = d := by
  induction b with
  | nil => exact fun h => h
  | cons x b ih =>
    intro c d h
    rw [List.foldl_cons, List.foldl_cons] at h
    exact (UInt32.xor_left_inj _).mp (crcByte_inj (ih h))

/-- A change of one byte changes the checksum. -/
def DetectsByte (crc : Bytes → UInt32) : Prop :=
  ∀ a x y b, crc (a ++ x :: b) = crc (a ++ y :: b) → x = y

theorem DetectsByte.flipBit {crc : Bytes → UInt32} (hd : DetectsByte crc) {b : Bytes} {i : Nat}
    (hi : i < b.length * 8) : crc (flipBit b i) ≠ crc b := by
  have hk : i / 8 < b.length := by omega
  have hb : b = b.take (i / 8) ++ b[i / 8] :: b.drop (i / 8 + 1) := by
    rw [← List.drop_eq_getElem_cons hk, List.take_append_drop]
  intro h
  have hbyte := hd (b.take (i / 8)) (b[i / 8] ^^^ 1 <<< UInt8.ofNat (i % 8)) b[i / 8]
    (b.drop (i / 8 + 1)) (by rw [← hb, ← h, CrashLogic.flipBit, List.modify_eq_take_cons_drop hk])
  have hmask : (1 : UInt8) <<< UInt8.ofNat (i % 8) = 0 := by
    have hx := congrArg (b[i / 8] ^^^ ·) hbyte
    simpa only [← UInt8.xor_assoc, UInt8.xor_self, UInt8.zero_xor] using hx
  have hpow := toNat_shiftLeft_one (Nat.mod_lt i (show 0 < 8 by decide))
  rw [hmask] at hpow
  exact absurd hpow (Nat.ne_of_lt (Nat.two_pow_pos _))

theorem DetectsByte.set {crc : Bytes → UInt32} (hd : DetectsByte crc) {b : Bytes} {i : Nat}
    {x : UInt8} (hi : i < b.length) (h : crc (b.set i x) = crc b) : x = b[i] := by
  have hb : b = b.take i ++ b[i] :: b.drop (i + 1) := by
    rw [← List.drop_eq_getElem_cons hi, List.take_append_drop]
  refine hd (b.take i) x b[i] (b.drop (i + 1)) ?_
  rw [← hb, ← h, List.set_eq_take_append_cons_drop, if_pos hi]

/-- **CRC-32 detects a change of one byte.** -/
theorem crc32Ieee_detectsByte : DetectsByte crc32Ieee := by
  intro a x y b h
  have hfold := (UInt32.xor_left_inj _).mp h
  rw [List.foldl_append, List.foldl_append, List.foldl_cons, List.foldl_cons] at hfold
  have hxy := (UInt32.xor_right_inj _).mp (crcByte_inj (foldl_crcByte_inj b hfold))
  apply UInt8.toNat_inj.mp
  rw [← UInt8.toNat_toUInt32, ← UInt8.toNat_toUInt32, hxy]

end AccretionDb
