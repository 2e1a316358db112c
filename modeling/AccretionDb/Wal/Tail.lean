import AccretionDb.Wal.Recovery

/-! # The tail of a torn log

What `scanBuffer` finds in a row of frames of which only the first bytes are left,
or of which one bit is flipped.  A cut always ends the scan at a frame boundary
(`scanBuffer_take`); no property of the checksum enters.  A flipped bit of the
payload or of the CRC field is caught by CRC-32, and so is every bit that makes
the declared length larger, since the bytes run out.  A cleared bit of the length
field is caught unless the shorter payload happens to have the same CRC-32, for
the CRC covers the payload alone (`scanBuffer_flip`).
-/

namespace AccretionDb.Wal

open CrashLogic

section Cut

variable [Hashing]

/-! ### Cuts -/

theorem length_frames_take_succ {ps : List Bytes} {k : Nat} (h : k < ps.length) :
    (frames (ps.take (k + 1))).length =
      (frames (ps.take k)).length + (encode ps[k]).length := by
  rw [List.take_add_one, List.getElem?_eq_getElem h, Option.toList_some, frames_concat,
    List.length_append]

theorem length_frames_take_mono (ps : List Bytes) {j k : Nat} (h : j ≤ k) :
    (frames (ps.take j)).length ≤ (frames (ps.take k)).length := by
  have hsplit : ps.take k = ps.take j ++ (ps.take k).drop j := by
    have htake : (ps.take k).take j = ps.take j := by rw [List.take_take, Nat.min_eq_left h]
    rw [← htake, List.take_append_drop]
  rw [hsplit, frames_append, List.length_append]
  omega

/-- A cut of a row of frames leaves some whole frames, and then part of the next. -/
theorem frames_take (ps : List Bytes) : ∀ n ≤ (frames ps).length,
    ∃ k ≤ ps.length, ∃ m, n = (frames (ps.take k)).length + m ∧
      (m ≠ 0 → ∃ h : k < ps.length, m < (encode ps[k]).length) := by
  induction ps with
  | nil =>
    intro n hn
    exact ⟨0, Nat.le_refl 0, 0, by simpa using hn, fun h => absurd rfl h⟩
  | cons p ps ih =>
    intro n hn
    by_cases hp : n < (encode p).length
    · exact ⟨0, Nat.zero_le _, n, (Nat.zero_add n).symm, fun _ => ⟨Nat.succ_pos _, hp⟩⟩
    · rw [frames_cons, List.length_append] at hn
      obtain ⟨r, rfl⟩ : ∃ r, n = (encode p).length + r := ⟨n - (encode p).length, by omega⟩
      obtain ⟨k, hk, m, rfl, hcut⟩ := ih r (by omega)
      refine ⟨k + 1, Nat.succ_le_succ hk, m, ?_, fun h0 => ?_⟩
      · rw [List.take_succ_cons, frames_cons, List.length_append, Nat.add_assoc]
      · obtain ⟨hlt, hm'⟩ := hcut h0
        exact ⟨Nat.succ_lt_succ hlt, hm'⟩

theorem frames_split {ps : List Bytes} {k : Nat} (h : k < ps.length) :
    frames ps = frames (ps.take k) ++ (encode ps[k] ++ frames (ps.drop (k + 1))) := by
  have hsplit : ps = ps.take k ++ ps[k] :: ps.drop (k + 1) := by
    rw [← List.drop_eq_getElem_cons h, List.take_append_drop]
  have hf := congrArg frames hsplit
  rwa [frames_append, frames_cons] at hf

/-- The bytes that a cut leaves, and the trace of their scan. -/
theorem Scan.of_cut {ps : List Bytes} (h : Fits ps) {k m : Nat}
    (hcut : m ≠ 0 → ∃ h : k < ps.length, m < (encode ps[k]).length) :
    Scan ((frames ps).take ((frames (ps.take k)).length + m)) 0 (ps.take k)
      (frames (ps.take k)).length (if m = 0 then .clean else .truncated) := by
  have hfit : Fits (ps.take k) := h.of_prefix (List.take_prefix k ps)
  by_cases hm : m = 0
  · have hpre : frames ps = frames (ps.take k) ++ frames (ps.drop k) := by
      rw [← frames_append, List.take_append_drop]
    rw [if_pos hm, hm, Nat.add_zero, hpre, List.take_left]
    exact Scan.of_frames_clean hfit
  · obtain ⟨hlt, hm'⟩ := hcut hm
    have hbuf : (frames ps).take ((frames (ps.take k)).length + m) =
        frames (ps.take k) ++ (encode ps[k]).take m := by
      rw [frames_split hlt, List.take_length_add_append,
        List.take_append_of_le_length (Nat.le_of_lt hm')]
    have hne : (encode ps[k]).take m ≠ [] := by
      intro h0
      have hl := congrArg List.length h0
      rw [List.length_take_of_le (Nat.le_of_lt hm')] at hl
      exact hm hl
    have hdec : decode (frames (ps.take k) ++ (encode ps[k]).take m) (frames (ps.take k)).length =
        .error .truncated := by
      have hoff := decode_append (frames (ps.take k)) ((encode ps[k]).take m) 0
      rw [Nat.add_zero] at hoff
      rw [hoff, decode_cut (h _ (List.getElem_mem hlt)) hm']
    rw [if_neg hm, hbuf]
    exact Scan.of_frames_error hfit hne hdec

/-- **The truncation rule.**  Of the first `n` bytes of a row of frames the scan
returns the payloads whose frames end within them, up to the end of the last of
these; it is clean exactly where the cut is a frame boundary. -/
theorem scanBuffer_take {ps : List Bytes} (h : Fits ps) {n : Nat} (hn : n ≤ (frames ps).length)
    (out : List Bytes) :
    ∃ k ≤ ps.length, ∃ r, scanBuffer ((frames ps).take n) out =
        (out ++ ps.take k, (frames (ps.take k)).length, r) ∧
      (∀ j < ps.length, j < k ↔ (frames (ps.take (j + 1))).length ≤ n) ∧
      (r = .clean ↔ ∃ j ≤ ps.length, n = (frames (ps.take j)).length) ∧
      (r = .clean ∨ r = .truncated) := by
  obtain ⟨k, hk, m, rfl, hcut⟩ := frames_take ps n hn
  have hscan := Scan.of_cut h hcut
  -- the next frame does not end within the cut
  have hnext : ∀ j, k < j → j ≤ ps.length →
      (frames (ps.take k)).length + m < (frames (ps.take j)).length := by
    intro j hkj hj
    have hlt : k < ps.length := by omega
    have hmono := length_frames_take_mono ps (show k + 1 ≤ j from hkj)
    rw [length_frames_take_succ hlt] at hmono
    have hpos : 0 < (encode ps[k]).length := List.length_pos_iff.mpr (encode_ne_nil _)
    have hm : m < (encode ps[k]).length := by
      by_cases h0 : m = 0
      · rw [h0]
        exact hpos
      · exact (hcut h0).2
    clear hcut
    omega
  refine ⟨k, hk, _, hscan.scanBuffer_eq out, fun j hj => ⟨fun hjk => ?_, fun hle => ?_⟩, ?_, ?_⟩
  · exact Nat.le_trans (length_frames_take_mono ps hjk) (Nat.le_add_right _ _)
  · by_contra hjk
    exact absurd (hnext (j + 1) (by omega) hj) (Nat.not_lt.mpr hle)
  · constructor
    · intro hr
      by_cases hm : m = 0
      · exact ⟨k, hk, by rw [hm, Nat.add_zero]⟩
      · rw [if_neg hm] at hr
        cases hr
    · rintro ⟨j, hj, hjn⟩
      by_cases hjk : j ≤ k
      · have := length_frames_take_mono ps hjk
        rw [if_pos (by omega)]
      · have := hnext j (by omega) hj
        omega
  · by_cases hm : m = 0
    · exact Or.inl (if_pos hm)
    · exact Or.inr (if_neg hm)

end Cut

/-- Three payloads, one of them empty. -/
def threePayloads : List Bytes := [[1, 2], [], [3, 4, 5]]

/-- The third frame is cut in its header. -/
theorem scanBuffer_take_demo : letI := Hashing.ieee fun _ => 0
    scanBuffer ((frames threePayloads).take 22) [[9]] = ([[9], [1, 2], []], 18, .truncated) := by
  let _ := Hashing.ieee fun _ => 0
  have hfit : ∀ p ∈ threePayloads, p.length < 2 ^ 32 := by decide
  have hlen : ∀ k < 4, (frames (threePayloads.take k)).length = [0, 10, 18, 29].getD k 0 := by
    decide +kernel
  have hall : (frames threePayloads).length = 29 := hlen 3 (by decide)
  obtain ⟨k, hk, r, hscan, hends, hclean, hr⟩ := scanBuffer_take (n := 22) hfit (by omega) [[9]]
  have hsecond : 1 < k := (hends 1 (by decide)).mpr (by rw [hlen 2 (by decide)]; decide)
  have hthird : ¬ 2 < k := fun h => by
    have hle := (hends 2 (by decide)).mp h
    rw [hlen 3 (by decide)] at hle
    exact absurd hle (by decide)
  obtain rfl : k = 2 := by omega
  have hcut : r ≠ .clean := fun h => by
    obtain ⟨j, hj, he⟩ := hclean.mp h
    have hlt : j < 4 := Nat.lt_succ_of_le hj
    rw [hlen j hlt] at he
    revert j
    decide
  rw [hscan, hr.resolve_left hcut, hlen 2 (by decide)]
  rfl

/-! ### Flipped bits -/

section Flip

variable [Hashing]

/-- The payload that is left when bit `i` of the length field is flipped. -/
def Phantom (p : Bytes) (i : Nat) : Prop :=
  i < 32 ∧ p.length.testBit i = true ∧
    Hashing.crc32 (p.take (p.length - 2 ^ i)) = Hashing.crc32 p

/-- A flip of the length field: the declared payload runs past the end, or it is a
prefix of the payload. -/
theorem decode_flip_len {p : Bytes} (hp : p.length < 2 ^ 32) {i : Nat} (hi : i < 32) :
    (¬ Phantom p i → ∃ e, decode (flipBit (encode p) i) 0 = .error e) ∧
      (Phantom p i → decode (flipBit (encode p) i) 0 =
        .ok ⟨p.take (p.length - 2 ^ i), HEADER_SZ + (p.length - 2 ^ i)⟩) := by
  have hlen : i < (leBytes LEN_SZ p.length).length * 8 := by
    rw [length_leBytes]
    exact hi
  have hflip : flipBit (encode p) i = flipBit (leBytes LEN_SZ p.length) i ++
      leBytes CRC_SZ (Hashing.crc32 p).toNat ++ p := by
    rw [encode, List.append_assoc, flipBit_append_left _ hlen, List.append_assoc]
  have hval : leNat (flipBit (leBytes LEN_SZ p.length) i) =
      if p.length.testBit i then p.length - 2 ^ i else p.length + 2 ^ i := by
    rw [leNat_flipBit hlen, leNat_leBytes_of_lt hp, xor_two_pow]
  rw [hflip, decode_header (by rw [length_flipBit, length_leBytes]) (length_leBytes ..), hval,
    leNat_leBytes_of_lt (Hashing.crc32 p).toNat_lt]
  by_cases hbit : p.length.testBit i = true
  · have hle : ¬ p.length - 2 ^ i > p.length := Nat.not_lt.mpr (Nat.sub_le _ _)
    rw [if_pos hbit, if_neg hle]
    refine ⟨fun hno => ?_, fun hph => ?_⟩
    · have hcrc : (Hashing.crc32 (p.take (p.length - 2 ^ i))).toNat ≠ (Hashing.crc32 p).toNat :=
        fun h => hno ⟨hi, hbit, UInt32.toNat_inj.mp h⟩
      rw [if_pos hcrc]
      exact ⟨_, rfl⟩
    · rw [if_neg (by rw [hph.2.2]; exact fun h => h rfl)]
  · have hgt : p.length + 2 ^ i > p.length := by
      have := Nat.two_pow_pos i
      omega
    rw [if_neg hbit, if_pos hgt]
    exact ⟨fun _ => ⟨_, rfl⟩, fun hph => absurd hph.2.1 hbit⟩

theorem decode_flip_crc {p : Bytes} (hp : p.length < 2 ^ 32) {i : Nat} (hi : i < 32) :
    decode (flipBit (encode p) (LEN_SZ * 8 + i)) 0 = .error .badCrc := by
  have hlen : i < (leBytes CRC_SZ (Hashing.crc32 p).toNat).length * 8 := by
    rw [length_leBytes]
    exact hi
  have hflip : flipBit (encode p) (LEN_SZ * 8 + i) = leBytes LEN_SZ p.length ++
      flipBit (leBytes CRC_SZ (Hashing.crc32 p).toNat) i ++ p := by
    have hright := flipBit_append_right (leBytes LEN_SZ p.length)
      (leBytes CRC_SZ (Hashing.crc32 p).toNat ++ p) i
    rw [length_leBytes, flipBit_append_left _ hlen] at hright
    rw [encode, List.append_assoc, hright, List.append_assoc]
  have hne : (Hashing.crc32 (p.take p.length)).toNat ≠
      leNat (flipBit (leBytes CRC_SZ (Hashing.crc32 p).toNat) i) := by
    rw [List.take_length, leNat_flipBit hlen, leNat_leBytes_of_lt (Hashing.crc32 p).toNat_lt,
      xor_two_pow]
    have hpos := Nat.two_pow_pos i
    by_cases hbit : (Hashing.crc32 p).toNat.testBit i = true
    · have hge := Nat.ge_two_pow_of_testBit hbit
      rw [if_pos hbit]
      omega
    · rw [if_neg hbit]
      omega
  rw [hflip, decode_header (length_leBytes ..) (by rw [length_flipBit, length_leBytes]),
    leNat_leBytes_of_lt hp, if_neg (Nat.lt_irrefl _), if_pos hne]

theorem decode_flip_payload (hd : DetectsByte Hashing.crc32) {p : Bytes} (hp : p.length < 2 ^ 32)
    {i : Nat} (hi : i < p.length * 8) :
    decode (flipBit (encode p) (HEADER_SZ * 8 + i)) 0 = .error .badCrc := by
  have hflip : flipBit (encode p) (HEADER_SZ * 8 + i) = leBytes LEN_SZ p.length ++
      leBytes CRC_SZ (Hashing.crc32 p).toNat ++ flipBit p i := by
    have hright := flipBit_append_right
      (leBytes LEN_SZ p.length ++ leBytes CRC_SZ (Hashing.crc32 p).toNat) p i
    rwa [List.length_append, length_leBytes, length_leBytes] at hright
  have hne : (Hashing.crc32 ((flipBit p i).take p.length)).toNat ≠ (Hashing.crc32 p).toNat := by
    have hall : (flipBit p i).take p.length = flipBit p i := by
      rw [← length_flipBit p i, List.take_length]
    rw [hall]
    exact fun h => hd.flipBit hi (UInt32.toNat_inj.mp h)
  have hle : ¬ p.length > (flipBit p i).length := by
    rw [length_flipBit]
    omega
  rw [hflip, decode_header (length_leBytes ..) (length_leBytes ..), leNat_leBytes_of_lt hp,
    leNat_leBytes_of_lt (Hashing.crc32 p).toNat_lt, if_neg hle, if_pos hne]

/-- Of all flips of a frame's bits only a phantom is read. -/
theorem decode_flip (hd : DetectsByte Hashing.crc32) {p : Bytes} (hp : p.length < 2 ^ 32)
    {i : Nat} (hi : i < (HEADER_SZ + p.length) * 8) (hno : ¬ Phantom p i) :
    ∃ e, decode (flipBit (encode p) i) 0 = .error e := by
  by_cases hlen : i < 32
  · exact (decode_flip_len hp hlen).1 hno
  · by_cases hcrc : i < 64
    · obtain ⟨j, rfl⟩ : ∃ j, i = LEN_SZ * 8 + j := ⟨i - 32, by simp only [LEN_SZ]; omega⟩
      exact ⟨_, decode_flip_crc hp (by simp only [LEN_SZ] at hcrc; omega)⟩
    · obtain ⟨j, rfl⟩ : ∃ j, i = HEADER_SZ * 8 + j :=
        ⟨i - 64, by simp only [HEADER_SZ, LEN_SZ, CRC_SZ]; omega⟩
      exact ⟨_, decode_flip_payload hd hp (by omega)⟩

/-- The scan of a row of frames whose last one has a flipped bit. -/
theorem Scan.of_flip (hd : DetectsByte Hashing.crc32) {ps : List Bytes} {p : Bytes}
    (h : Fits (ps ++ [p])) {i : Nat} (hi : i < (HEADER_SZ + p.length) * 8) :
    (¬ Phantom p i → ∃ r ≠ .clean, Scan (frames ps ++ flipBit (encode p) i) 0 ps
      (frames ps).length r) ∧
    (Phantom p i → ∃ more stop r, Scan (frames ps ++ flipBit (encode p) i) 0
      (ps ++ p.take (p.length - 2 ^ i) :: more) stop r) := by
  have hp : p.length < 2 ^ 32 := h.right p List.mem_cons_self
  have hoff := decode_append (frames ps) (flipBit (encode p) i) 0
  rw [Nat.add_zero] at hoff
  refine ⟨fun hno => ?_, fun hph => ?_⟩
  · obtain ⟨e, he⟩ := decode_flip hd hp hi hno
    have hne : flipBit (encode p) i ≠ [] := by
      intro h0
      have hl := congrArg List.length h0
      rw [length_flipBit] at hl
      exact encode_ne_nil p (List.length_eq_zero_iff.mp hl)
    exact ⟨e.stop, FrameError.stop_ne_clean e, .of_frames_error h.left hne (by rw [hoff, he])⟩
  · have hok := (decode_flip_len hp hph.1).2 hph
    rw [← hoff] at hok
    obtain ⟨more, stop, r, hrest⟩ := @Scan.exists_of_le _
      (frames ps ++ flipBit (encode p) i) _ _ (Nat.le_refl _) (decode_eq_ok hok).2.1
    have hall := @Scan.of_frames _ [] _ h.left (flipBit (encode p) i) _ _ _ (.frame hok hrest)
    exact ⟨more, stop, r, hall⟩

end Flip

/-- **The bit-flip rule.**  With one bit of the last frame flipped, the scan returns
the payloads before it and stops where it starts, unless the flip clears a bit of
the length field and the payload so shortened has the same CRC-32: then, and only
then, the shortened payload is returned. -/
theorem scanBuffer_flip (digest : Bytes → BitVec 128) {ps : List Bytes} {p : Bytes}
    (h : Fits (ps ++ [p])) {i : Nat} (hi : i < (HEADER_SZ + p.length) * 8) (out : List Bytes) :
    letI := Hashing.ieee digest
    (¬ (i < 32 ∧ p.length.testBit i = true ∧
        crc32Ieee (p.take (p.length - 2 ^ i)) = crc32Ieee p) →
      ∃ r ≠ .clean, scanBuffer (frames ps ++ flipBit (encode p) i) out =
        (out ++ ps, (frames ps).length, r)) ∧
    (i < 32 ∧ p.length.testBit i = true ∧
        crc32Ieee (p.take (p.length - 2 ^ i)) = crc32Ieee p →
      ∃ more stop r, scanBuffer (frames ps ++ flipBit (encode p) i) out =
        (out ++ (ps ++ p.take (p.length - 2 ^ i) :: more), stop, r)) := by
  let _ := Hashing.ieee digest
  have hscan := @Scan.of_flip _ crc32Ieee_detectsByte ps _ h _ hi
  refine ⟨fun hno => ?_, fun hph => ?_⟩
  · obtain ⟨r, hr, hs⟩ := hscan.1 hno
    exact ⟨r, hr, hs.scanBuffer_eq out⟩
  · obtain ⟨more, stop, r, hs⟩ := hscan.2 hph
    exact ⟨more, stop, r, hs.scanBuffer_eq out⟩

/-- A flipped bit of a payload of one byte. -/
theorem scanBuffer_flip_demo : letI := Hashing.ieee fun _ => 0
    ∃ r ≠ .clean, scanBuffer (frames [[7]] ++ flipBit (encode [1]) 64) [] =
      ([] ++ [[7]], (frames [[7]]).length, r) := by
  have hfit : Fits ([[7]] ++ [[1]]) := by
    intro p hp
    rw [List.cons_append, List.nil_append, List.mem_cons, List.mem_singleton] at hp
    rcases hp with rfl | rfl
    · decide
    · decide
  exact (scanBuffer_flip (fun _ => 0) hfit (i := 64) (by decide) []).1
    fun hph => absurd hph.1 (by decide)

/-- The CRC-32 of these four bytes is that of the empty string, so clearing the one
bit of their length leaves a frame of an empty payload. -/
theorem phantom_record : letI := Hashing.ieee fun _ => 0
    scanBuffer (flipBit (encode [0x9d, 0x0a, 0xd9, 0x6d]) 2) [] = ([[]], 8, .truncated) := by
  decide +kernel

end AccretionDb.Wal
