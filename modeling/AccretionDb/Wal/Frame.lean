import AccretionDb.Hashing

/-! # WAL record framing

A frame is the payload's length, its CRC and the payload.  A segment that nothing
damaged is a row of frames (`frames`), and `decode` at the start of any of them
finds it.  What `decode` rejects is a frame that is not all there, and a frame
whose payload does not match its CRC.
-/

namespace AccretionDb.Wal

open CrashLogic

/-! ### Payload lengths -/

/-- Every payload's length fits its field. -/
def Fits (ps : List Bytes) : Prop := ∀ p ∈ ps, p.length < 2 ^ 32

theorem Fits.nil : Fits [] := nofun

theorem Fits.append {ps qs : List Bytes} (h : Fits ps) (h' : Fits qs) : Fits (ps ++ qs) := by
  intro p hp
  rcases List.mem_append.mp hp with hp | hp
  · exact h p hp
  · exact h' p hp

theorem Fits.left {ps qs : List Bytes} (h : Fits (ps ++ qs)) : Fits ps :=
  fun p hp => h p (List.mem_append_left qs hp)

theorem Fits.right {ps qs : List Bytes} (h : Fits (ps ++ qs)) : Fits qs :=
  fun p hp => h p (List.mem_append_right ps hp)

theorem Fits.of_prefix {ps qs : List Bytes} (h : Fits qs) (hp : ps <+: qs) : Fits ps :=
  fun p hm => h p (hp.subset hm)

theorem Fits.flatMap_cons {s : Nat × List Bytes} {pss : List (Nat × List Bytes)}
    (h : Fits ((s :: pss).flatMap Prod.snd)) : Fits s.2 ∧ Fits (pss.flatMap Prod.snd) := by
  rw [List.flatMap_cons] at h
  exact ⟨h.left, h.right⟩

/-! ### One frame -/

variable [Hashing]

/-- Size of the little-endian `u32` payload-length field. -/
def LEN_SZ : Nat := 4
/-- Size of the little-endian `u32` CRC field. -/
def CRC_SZ : Nat := 4
/-- Per-record framing overhead. -/
def HEADER_SZ : Nat := LEN_SZ + CRC_SZ

/-- The crc-framed record; the length field holds the length modulo `2 ^ 32`. -/
def encode (payload : Bytes) : Bytes :=
  leBytes LEN_SZ payload.length ++ leBytes CRC_SZ (Hashing.crc32 payload).toNat ++ payload

structure DecodedFrame where
  payload : Bytes
  totalLen : Nat
  deriving DecidableEq, Repr

inductive FrameError
  | truncated
  | badCrc
  deriving DecidableEq, Repr

def decode (buf : Bytes) (offset : Nat) : Except FrameError DecodedFrame :=
  let headerEnd := offset + HEADER_SZ
  if headerEnd > buf.length then .error .truncated
  else
    let payloadLen := leNat (slice buf offset LEN_SZ)
    let wantCrc := leNat (slice buf (offset + LEN_SZ) CRC_SZ)
    let payloadEnd := headerEnd + payloadLen
    if payloadEnd > buf.length then .error .truncated
    else
      let payload := slice buf headerEnd payloadLen
      if (Hashing.crc32 payload).toNat ≠ wantCrc then .error .badCrc
      else .ok ⟨payload, HEADER_SZ + payloadLen⟩

theorem length_encode (p : Bytes) : (encode p).length = HEADER_SZ + p.length := by
  simp only [encode, List.length_append, length_leBytes]
  rfl

/-- Decoding at an offset only looks at the bytes from there on. -/
theorem decode_append (a b : Bytes) (off : Nat) :
    decode (a ++ b) (a.length + off) = decode b off := by
  have hs : ∀ k n, slice (a ++ b) (a.length + off + k) n = slice b (off + k) n := by
    intro k n
    rw [Nat.add_assoc, slice_append_right]
  have hl : ∀ k, a.length + off + k > (a ++ b).length ↔ off + k > b.length := by
    intro k
    rw [List.length_append]
    omega
  have h0 := hs 0 LEN_SZ
  simp only [Nat.add_zero] at h0
  have hp : ∀ n, a.length + off + HEADER_SZ + n > (a ++ b).length ↔
      off + HEADER_SZ + n > b.length := by
    intro n
    rw [List.length_append]
    omega
  simp only [decode, hs, hl, hp, h0]

/-- The fields of an accepted frame. -/
theorem decode_eq_ok {buf : Bytes} {off : Nat} {f : DecodedFrame} (h : decode buf off = .ok f) :
    f.totalLen = HEADER_SZ + f.payload.length ∧ off + f.totalLen ≤ buf.length ∧
      f.payload.length < 2 ^ 32 := by
  simp only [decode] at h
  split at h
  · cases h
  · rename_i h1
    split at h
    · cases h
    · rename_i h2
      split at h
      · cases h
      · injection h with h
        subst h
        have hlen : (slice buf (off + HEADER_SZ) (leNat (slice buf off LEN_SZ))).length =
            leNat (slice buf off LEN_SZ) := length_slice_of_le (by omega)
        have hlt := leNat_lt (slice buf off LEN_SZ)
        have hfield : (slice buf off LEN_SZ).length = 4 :=
          length_slice_of_le (by simp only [HEADER_SZ, LEN_SZ, CRC_SZ] at h1 ⊢; omega)
        rw [hfield] at hlt
        refine ⟨by rw [hlen], by simp only; omega, ?_⟩
        simp only [hlen]
        exact hlt

/-- What `decode` makes of a header and the bytes behind it. -/
theorem decode_header {len crc : Bytes} (hl : len.length = LEN_SZ) (hc : crc.length = CRC_SZ)
    (p : Bytes) : decode (len ++ crc ++ p) 0 =
      if leNat len > p.length then .error .truncated
      else if (Hashing.crc32 (p.take (leNat len))).toNat ≠ leNat crc then .error .badCrc
      else .ok ⟨p.take (leNat len), HEADER_SZ + leNat len⟩ := by
  have hhead : (len ++ crc).length = HEADER_SZ := by rw [List.length_append, hl, hc, HEADER_SZ]
  have h1 : slice (len ++ crc ++ p) 0 LEN_SZ = len := by
    rw [List.append_assoc, slice, List.drop_zero, ← hl, List.take_left]
  have h2 : slice (len ++ crc ++ p) (0 + LEN_SZ) CRC_SZ = crc := by
    rw [Nat.zero_add, ← hl, ← hc]
    exact slice_mid len crc p
  have h3 : ∀ n, slice (len ++ crc ++ p) (0 + HEADER_SZ) n = p.take n := by
    intro n
    rw [Nat.zero_add, ← hhead, slice, List.drop_left]
  have hbuf : (len ++ crc ++ p).length = HEADER_SZ + p.length := by
    rw [List.length_append, hhead]
  have hle : ¬ 0 + HEADER_SZ > HEADER_SZ + p.length := by omega
  have hend : 0 + HEADER_SZ + leNat len > HEADER_SZ + p.length ↔ leNat len > p.length := by omega
  simp only [decode, hbuf, if_neg hle, h1, hend, h2, h3]

/-- **Framing is reversible** for payloads whose length fits its field. -/
theorem decode_encode {p : Bytes} (h : p.length < 2 ^ 32) (rest : Bytes) :
    decode (encode p ++ rest) 0 = .ok ⟨p, HEADER_SZ + p.length⟩ := by
  have hle : ¬ p.length > (p ++ rest).length := by
    rw [List.length_append]
    omega
  rw [encode, List.append_assoc, decode_header (length_leBytes ..) (length_leBytes ..),
    leNat_leBytes_of_lt h, if_neg hle, List.take_left,
    leNat_leBytes_of_lt (Hashing.crc32 p).toNat_lt, if_neg (fun hne => hne rfl)]

/-- A frame of which only a part is there is rejected as truncated. -/
theorem decode_cut {p : Bytes} (h : p.length < 2 ^ 32) {n : Nat} (hn : n < (encode p).length) :
    decode ((encode p).take n) 0 = .error .truncated := by
  have hlen : ((encode p).take n).length = n := List.length_take_of_le (by omega)
  rw [length_encode] at hn
  by_cases h8 : HEADER_SZ ≤ n
  · have hsl : slice ((encode p).take n) 0 LEN_SZ = leBytes LEN_SZ p.length := by
      have h4 : LEN_SZ ≤ n := by
        simp only [HEADER_SZ, LEN_SZ, CRC_SZ] at h8 ⊢
        omega
      rw [slice, List.drop_zero, List.take_take, Nat.min_eq_left h4, encode, List.append_assoc]
      have : (leBytes LEN_SZ p.length ++ (leBytes CRC_SZ (Hashing.crc32 p).toNat ++ p)).take
          (leBytes LEN_SZ p.length).length = leBytes LEN_SZ p.length := List.take_left
      rwa [length_leBytes] at this
    have hnat : leNat (leBytes LEN_SZ p.length) = p.length := leNat_leBytes_of_lt h
    have h1 : ¬ 0 + HEADER_SZ > ((encode p).take n).length := by omega
    have h2 : 0 + HEADER_SZ + p.length > ((encode p).take n).length := by omega
    simp only [decode, if_neg h1, hsl, hnat, if_pos h2]
  · have h1 : 0 + HEADER_SZ > ((encode p).take n).length := by omega
    simp only [decode, if_pos h1]

/-! ### Rows of frames -/

/-- The bytes of a segment that holds these payloads. -/
def frames (ps : List Bytes) : Bytes := ps.flatMap encode

@[simp] theorem frames_nil : frames [] = [] := rfl

@[simp] theorem frames_cons (p : Bytes) (ps : List Bytes) : frames (p :: ps) = encode p ++ frames ps :=
  rfl

@[simp] theorem frames_append (ps qs : List Bytes) : frames (ps ++ qs) = frames ps ++ frames qs :=
  List.flatMap_append

theorem frames_concat (ps : List Bytes) (p : Bytes) : frames (ps ++ [p]) = frames ps ++ encode p := by
  rw [frames_append, frames_cons, frames_nil, List.append_nil]

theorem encode_ne_nil (p : Bytes) : encode p ≠ [] := by
  intro h
  have := length_encode p
  rw [h, List.length_nil] at this
  simp only [HEADER_SZ, LEN_SZ, CRC_SZ] at this
  omega

theorem frames_eq_nil {ps : List Bytes} : frames ps = [] ↔ ps = [] := by
  cases ps with
  | nil => exact ⟨fun _ => rfl, fun _ => rfl⟩
  | cons p ps => simp [encode_ne_nil]

/-! ### Damage

A torn file keeps a prefix of the frames it held.  Where the next one was, `decode`
must not find a frame: that is what the CRC is for, and `RejectsDamage` says that
it does its work on the damage at hand. -/

/-- No frame of `live` of which `kept` has lost something decodes in `kept`. -/
def RejectsDamage (live kept : Bytes) : Prop :=
  ∀ ps p rest, live = frames ps ++ encode p ++ rest → frames ps <+: kept →
    ¬ frames ps ++ encode p <+: kept → ∃ e, decode kept (frames ps).length = .error e

/-- Where nothing was lost there is no damage. -/
theorem RejectsDamage.refl (b : Bytes) : RejectsDamage b b :=
  fun _ _ _ hb _ hno => absurd (hb ▸ List.prefix_append _ _) hno

/-- A frame that was cut has its length and not its payload, or not even that. -/
theorem RejectsDamage.of_prefix {live kept : Bytes} (h : kept <+: live)
    (hlen : live.length < 2 ^ 32) : RejectsDamage live kept := by
  rintro ps p rest rfl ⟨junk, rfl⟩ hno
  rw [List.append_assoc, List.prefix_append_right_inj] at h
  rw [List.prefix_append_right_inj] at hno
  have hp : p.length < 2 ^ 32 := by
    simp only [List.length_append, length_encode] at hlen
    omega
  have hcut : junk <+: encode p ∧ junk.length < (encode p).length := by
    rcases List.prefix_or_prefix_of_prefix h (List.prefix_append (encode p) rest) with hj | hj
    · refine ⟨hj, Nat.lt_of_not_le fun hle => hno ?_⟩
      exact ⟨[], by rw [List.append_nil, hj.eq_of_length_le hle]⟩
    · exact absurd hj hno
  obtain ⟨⟨tail, htail⟩, hshort⟩ := hcut
  refine ⟨.truncated, ?_⟩
  have hdec := decode_append (frames ps) junk 0
  rw [Nat.add_zero] at hdec
  rw [hdec, decode]
  by_cases hhead : 0 + HEADER_SZ > junk.length
  · rw [if_pos hhead]
  · have hlong : 0 + LEN_SZ ≤ junk.length := by
      simp only [HEADER_SZ, LEN_SZ, CRC_SZ] at hhead ⊢
      omega
    have hlenfield : leNat (slice junk 0 LEN_SZ) = p.length := by
      rw [← slice_append_left (b := tail) hlong, htail, encode, List.append_assoc,
        slice_append_left (by rw [length_leBytes]; omega)]
      have hall := slice_all (leBytes LEN_SZ p.length)
      rw [length_leBytes] at hall
      rw [hall, leNat_leBytes_of_lt hp]
    rw [if_neg hhead]
    dsimp only
    rw [hlenfield, if_pos]
    rw [length_encode] at hshort
    omega

/-- Behind the frames of `ps`, where decoding fails. -/
def Dead (ps : List Bytes) (junk : Bytes) : Prop :=
  junk ≠ [] ∧ ∃ e, decode (frames ps ++ junk) (frames ps).length = .error e

/-- What is left of a row of frames is a shorter row, and then nothing or damage. -/
theorem RejectsDamage.split {ps : List Bytes} {k : Bytes} :
    ∀ {qs : List Bytes}, RejectsDamage (frames ps ++ frames qs) k → frames ps <+: k →
      k.length ≤ (frames ps ++ frames qs).length →
      ∃ q₁ junk, q₁ <+: qs ∧ k = frames (ps ++ q₁) ++ junk ∧ (junk = [] ∨ Dead (ps ++ q₁) junk) := by
  intro qs
  induction qs generalizing ps with
  | nil =>
    rintro _ ⟨junk, rfl⟩ hl
    simp only [List.length_append, frames_nil, List.length_nil] at hl
    have hj : junk = [] := List.length_eq_zero_iff.mp (by omega)
    exact ⟨[], junk, List.prefix_refl _, by rw [List.append_nil], Or.inl hj⟩
  | cons q qs ih =>
    intro hr hp hl
    by_cases hq : frames ps ++ encode q <+: k
    · have hsplit : frames ps ++ frames (q :: qs) = frames (ps ++ [q]) ++ frames qs := by
        rw [frames_concat, frames_cons, List.append_assoc]
      rw [hsplit] at hr hl
      rw [← frames_concat] at hq
      obtain ⟨q₁, junk, h1, h2, h3⟩ := ih hr hq hl
      refine ⟨q :: q₁, junk, List.prefix_cons_inj q |>.mpr h1, ?_, ?_⟩
      · rw [h2, List.append_assoc ps, List.singleton_append]
      · rwa [List.append_assoc ps, List.singleton_append] at h3
    · obtain ⟨junk, rfl⟩ := hp
      refine ⟨[], junk, List.nil_prefix, by rw [List.append_nil], ?_⟩
      rw [List.append_nil]
      by_cases hj : junk = []
      · exact Or.inl hj
      · refine Or.inr ⟨hj, hr ps q (frames qs) ?_ (List.prefix_append _ _) hq⟩
        rw [frames_cons, List.append_assoc]

end AccretionDb.Wal
