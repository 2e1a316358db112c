import AccretionDb.Lib.Checked
import AccretionDb.Storage.Exec
import AccretionDb.Wal.Live
import Mathlib.Algebra.Order.BigOperators.Group.List

/-! # Recovering the log with every step checked

Framing, scanning and the cut of a dirty tail as a debug build runs them.  None of it
panics, whatever the segments hold, as long as a segment's length is a word; the loops end,
as every frame has a header and every read a byte.  So opening the log is what it was
(`exec_open`).
-/

namespace AccretionDb.Debug.Wal

open CrashLogic
open AccretionDb.Wal (DecodedFrame FrameError HEADER_SZ LEN_SZ CRC_SZ StopReason Recovered Scan
  SegName segBytes segmentPath tmpPath listSegments openActive Config State)

/-! ### Frames -/

section Frames

variable [Hashing]

def decode (buf : Bytes) (offset : Nat) : Option (Except FrameError DecodedFrame) :=
  match Checked.add offset HEADER_SZ with
  | none => some (.error .truncated)
  | some headerEnd =>
    if headerEnd > buf.length then some (.error .truncated)
    else do
      let lenEnd ← Checked.add offset LEN_SZ
      let lenBytes ← Checked.range buf offset lenEnd
      let lenBytes ← Checked.array LEN_SZ lenBytes
      let payloadLen := leNat lenBytes
      let crcBytes ← Checked.range buf lenEnd headerEnd
      let crcBytes ← Checked.array CRC_SZ crcBytes
      let wantCrc := leNat crcBytes
      match Checked.add headerEnd payloadLen with
      | none => some (.error .truncated)
      | some payloadEnd =>
        if payloadEnd > buf.length then some (.error .truncated)
        else do
          let payload ← Checked.range buf headerEnd payloadEnd
          if (Hashing.crc32 payload).toNat ≠ wantCrc then some (.error .badCrc)
          else do
            let totalLen ← Checked.add HEADER_SZ payloadLen
            some (.ok ⟨payload, totalLen⟩)

/-- The loop of `scan_buffer`; one that takes more rounds counts as one that never ends. -/
def scanLoop (buf : Bytes) : Nat → Nat → List Bytes → Option (List Bytes × Nat × StopReason)
  | 0, _, _ => none
  | rounds + 1, off, out =>
    if off = buf.length then some (out, off, .clean)
    else do
      match ← decode buf off with
      | .ok f => do
        let next ← Checked.add off f.totalLen
        scanLoop buf rounds next (out ++ [f.payload])
      | .error e => some (out, off, e.stop)

def scanBuffer (buf : Bytes) (out : List Bytes) : Option (List Bytes × Nat × StopReason) :=
  scanLoop buf (buf.length + 1) 0 out

theorem decode_eq {buf : Bytes} (h : buf.length < 2 ^ 64) (off : Nat) :
    decode buf off = some (AccretionDb.Wal.decode buf off) := by
  have hL : LEN_SZ + CRC_SZ = HEADER_SZ := rfl
  have h8 : HEADER_SZ = 8 := rfl
  rw [decode, AccretionDb.Wal.decode]
  by_cases hhead : off + HEADER_SZ > buf.length
  · -- the header is not there, even where its end is no word
    rw [if_pos hhead]
    by_cases hadd : off + HEADER_SZ < 2 ^ 64
    · rw [Checked.add_of_lt hadd]
      exact if_pos hhead
    · rw [Checked.add, if_neg hadd]
  · have hlen : (slice buf off LEN_SZ).length = LEN_SZ := length_slice_of_le (by omega)
    have hcrc : (slice buf (off + LEN_SZ) CRC_SZ).length = CRC_SZ := length_slice_of_le (by omega)
    have hfield := leNat_lt (slice buf off LEN_SZ)
    rw [hlen] at hfield
    have hl : off + LEN_SZ - off = LEN_SZ := by omega
    have hc : off + HEADER_SZ - (off + LEN_SZ) = CRC_SZ := by omega
    rw [if_neg hhead, Checked.add_of_lt (by omega)]
    dsimp only
    rw [if_neg hhead, Checked.add_of_lt (by omega)]
    dsimp only [Option.bind_eq_bind, Option.bind_some]
    rw [Checked.range_of_le (by omega) (by omega), Checked.range_of_le (by omega) (by omega), hl, hc]
    dsimp only [Option.bind_some]
    rw [Checked.array_of_length hlen, Checked.array_of_length hcrc]
    dsimp only [Option.bind_some]
    by_cases hend : off + HEADER_SZ + leNat (slice buf off LEN_SZ) > buf.length
    · rw [if_pos hend]
      by_cases hadd : off + HEADER_SZ + leNat (slice buf off LEN_SZ) < 2 ^ 64
      · rw [Checked.add_of_lt hadd]
        exact if_pos hend
      · rw [Checked.add, if_neg hadd]
    · have hp : off + HEADER_SZ + leNat (slice buf off LEN_SZ) - (off + HEADER_SZ) =
          leNat (slice buf off LEN_SZ) := by omega
      have htotal : HEADER_SZ + leNat (slice buf off LEN_SZ) < 2 ^ 64 := by omega
      rw [if_neg hend, Checked.add_of_lt (by omega)]
      dsimp only
      rw [if_neg hend, Checked.range_of_le (by omega) (by omega), hp, Checked.add_of_lt htotal]
      exact (apply_ite some _ _ _).symm

/-- **The scan ends** without a panic. -/
theorem scanBuffer_eq {buf : Bytes} (h : buf.length < 2 ^ 64) (out : List Bytes) :
    scanBuffer buf out = some (AccretionDb.Wal.scanBuffer buf out) := by
  have hloop : ∀ {off : Nat} {ps : List Bytes} {stop : Nat} {r : StopReason},
      Scan buf off ps stop r → ∀ rounds out, off ≤ buf.length → buf.length - off < rounds →
        scanLoop buf rounds off out = some (out ++ ps, stop, r) := by
    intro off ps stop r hs
    induction hs with
    | done hoff =>
      intro rounds out _ hr
      obtain ⟨rounds, rfl⟩ : ∃ k, rounds = k + 1 := ⟨rounds - 1, by omega⟩
      rw [scanLoop, if_pos hoff, List.append_nil]
    | bad hoff hd =>
      intro rounds out _ hr
      obtain ⟨rounds, rfl⟩ : ∃ k, rounds = k + 1 := ⟨rounds - 1, by omega⟩
      rw [scanLoop, if_neg hoff, decode_eq h, hd, List.append_nil]
      rfl
    | @frame off stop f ps r hd tail ih =>
      intro rounds out hle hr
      obtain ⟨rounds, rfl⟩ : ∃ k, rounds = k + 1 := ⟨rounds - 1, by omega⟩
      have hpos := Scan.decode_totalLen_pos hd
      have hend := (AccretionDb.Wal.decode_eq_ok hd).2.1
      have hoff : off ≠ buf.length := by omega
      rw [scanLoop, if_neg hoff, decode_eq h, hd]
      show (Checked.add off f.totalLen >>= _) = _
      rw [Checked.add_of_lt (by omega)]
      show scanLoop buf rounds (off + f.totalLen) (out ++ [f.payload]) = _
      rw [ih rounds _ hend (by omega), List.append_assoc, List.singleton_append]
  obtain ⟨ps, stop, r, hs⟩ := Scan.exists_scan buf
  rw [hs.scanBuffer_eq]
  exact hloop hs _ _ (Nat.zero_le _) (by omega)

end Frames

/-! ### Programs -/

section Programs

variable {M : Type}

/-- The loop of `read_all`; one that takes more rounds counts as one that never ends. -/
def readLoop (path : Path) (len : Nat) : Nat → Bytes → Io M StorageError Bytes
  | 0, _ => Act.hang
  | rounds + 1, buf =>
    if buf.length < len then do
      let room ← Act.unwrap (Checked.sub len buf.length)
      let chunk ← storage (.readAt path buf.length room)
      if chunk.length = 0 then pure buf
      else do
        let _read ← Act.unwrap (Checked.add buf.length chunk.length)
        readLoop path len rounds (buf ++ chunk)
    else pure buf

def readAll (path : Path) : Io M StorageError Bytes := do
  match ← Act.attempt (storage (.len path)) with
  | .ok len => readLoop path len (len + 1) []
  | .error (.notFound _) => pure []
  | .error err => throw err

/-- `truncate_tail` -/
def truncateTail (dir : Dir) (tailSegment validLen : Nat) : Io M StorageError Unit := do
  let path := segmentPath dir tailSegment
  let current ← storage (.len path)
  if validLen ≥ current then pure ()
  else do
    let buf ← readAll path
    let keep ← Act.unwrap (Checked.range buf 0 validLen)
    let tmp := tmpPath dir tailSegment
    let _ ← Act.attempt (storage (.delete tmp))
    storage (.create tmp)
    let _at ← storage (.append tmp keep)
    storage (.syncFile tmp)
    storage (.rename tmp path)
    storage (.syncDir dir)

variable [Hashing]

def recoverLoop : List (Nat × Path) → Recovered → Io M StorageError Recovered
  | [], result => pure result
  | (id, path) :: rest, result => do
    let buf ← readAll path
    let (records, validLen, reason) ← Act.unwrap (scanBuffer buf result.records)
    let result : Recovered := ⟨records, some id, validLen, reason⟩
    if reason ≠ .clean then pure result else recoverLoop rest result

def recover (dir : Dir) : Io M StorageError Recovered := do
  let segments ← listSegments dir
  recoverLoop segments .default

/-- `Wal::open` -/
def «open» (self : Config) : Io M StorageError (State × Recovered) := do
  let recovered ← recover self.dir
  if recovered.stopReason ≠ .clean then
    match recovered.tailSegment with
    | some tail => truncateTail self.dir tail recovered.tailValidLen
    | none => pure ()
  let active ← openActive self
  pure (⟨⟨active⟩, .default⟩, recovered)

end Programs

/-! ### No panic -/

section Runs

variable {M : Type} {path : Path} {dir : Dir} {s : SimFs} {m : M}

theorem exec_readLoop {b : Blob} (hb : (s.disk path).live = some b)
    (hlen : b.content.length < 2 ^ 64) : ∀ rounds (buf : Bytes) {s' : SimFs} (m : M), s'.Tidy →
      s'.disk = s.disk → buf.length ≤ b.content.length → b.content.length - buf.length ≤ rounds →
      s'.exec (readLoop path b.content.length (rounds + 1) buf) m =
        s'.exec (AccretionDb.Wal.readLoop path b.content.length rounds buf) m := by
  intro rounds
  induction rounds with
  | zero =>
    intro buf s' m hs hd hle hr
    have hend : ¬ buf.length < b.content.length := by omega
    rw [readLoop, if_neg hend, AccretionDb.Wal.readLoop]
  | succ rounds ih =>
    intro buf s' m hs hd hle hr
    rw [readLoop, AccretionDb.Wal.readLoop]
    by_cases hlt : buf.length < b.content.length
    · rw [if_pos hlt, if_pos hlt, Act.unwrap_bind (Checked.sub_of_le hle)]
      refine SimFs.exec_congr hs (Q := fun chunk σ => σ.1 = s.disk ∧
        chunk.length ≤ b.content.length - buf.length) (R := fun _ _ => True) (C := fun _ => True)
        (H := False) ?_ fun chunk s₁ m₁ hs₁ hq => ?_
      · rw [hd]
        refine wpE_readAt trivial hb hle ⟨rfl, ?_⟩ fun hf => hf.elim
        rw [length_slice]
        exact Nat.min_le_left ..
      · obtain ⟨hd₁, hchunk⟩ := hq
        by_cases hzero : chunk.length = 0
        · rw [if_pos hzero, if_pos hzero]
        · rw [if_neg hzero, if_neg hzero, Act.unwrap_bind (Checked.add_of_lt (by omega))]
          have happ : (buf ++ chunk).length = buf.length + chunk.length := List.length_append
          exact ih (buf ++ chunk) m₁ hs₁ hd₁ (by omega) (by omega)
    · rw [if_neg hlt, if_neg hlt]

/-- The file at the path is shorter than a word can say. -/
def Short (s : SimFs) (path : Path) : Prop :=
  ∀ b, (s.disk path).live = some b → b.content.length < 2 ^ 64

theorem exec_readAll (hs : s.Tidy) (hshort : Short s path) :
    s.exec (readAll path) m = s.exec (AccretionDb.Wal.readAll path) m := by
  refine SimFs.exec_congr hs (Q := fun r σ => σ.1 = s.disk ∧ ∀ len, r = .ok len →
    ∃ b, (s.disk path).live = some b ∧ len = b.content.length) (R := fun _ _ => True)
    (C := fun _ => True) (H := False) ?_ fun r s₁ m₁ hs₁ hq => ?_
  · refine wpE_attempt (wpE_len trivial (fun b hb => ⟨rfl, fun len hlen => ⟨b, hb, ?_⟩⟩)
      (fun _ => ⟨rfl, fun len hlen => by cases hlen⟩) fun hf => hf.elim)
    exact (Except.ok.inj hlen).symm
  · obtain ⟨hd₁, hok⟩ := hq
    cases r with
    | error err => cases err <;> rfl
    | ok len =>
      obtain ⟨b, hb, rfl⟩ := hok len rfl
      exact exec_readLoop hb (hshort b hb) _ [] m₁ hs₁ hd₁ (Nat.zero_le _) (Nat.le_refl _)

theorem Short.congr {s' : SimFs} (h : Short s path) (hd : s'.disk = s.disk) : Short s' path := by
  intro b hb
  rw [hd] at hb
  exact h b hb

theorem Short.segBytes {n : SegName} (h : Short s (n.path dir)) :
    (segBytes dir s.disk n).length < 2 ^ 64 := by
  rw [AccretionDb.Wal.segBytes]
  cases hl : (s.disk (n.path dir)).live with
  | none => exact Nat.two_pow_pos 64
  | some b => exact h b hl

theorem exec_truncateTail (hs : s.Tidy) {tail validLen : Nat}
    (hshort : Short s (segmentPath dir tail)) :
    s.exec (truncateTail dir tail validLen) m =
      s.exec (AccretionDb.Wal.truncateTail dir tail validLen) m := by
  refine SimFs.exec_congr hs (Q := fun current σ => σ.1 = s.disk ∧
    current = (segBytes dir s.disk (.plain tail)).length) (R := fun _ _ => True)
    (C := fun _ => True) (H := False) ?_ fun current s₁ m₁ hs₁ hq => ?_
  · refine wpE_len trivial (fun b hb => ⟨rfl, ?_⟩) (fun _ => trivial) fun hf => hf.elim
    show _ = ((s.disk (segmentPath dir tail)).live.elim [] Blob.content).length
    rw [show (s.disk (segmentPath dir tail)).live = some b from hb]
    rfl
  · obtain ⟨hd₁, hlen⟩ := hq
    change s₁.disk = s.disk at hd₁
    by_cases hdone : validLen ≥ current
    · rw [if_pos hdone, if_pos hdone]
    · rw [if_neg hdone, if_neg hdone, SimFs.exec_bind_congr (exec_readAll hs₁ (hshort.congr hd₁))]
      refine SimFs.exec_congr hs₁ (Q := fun buf _ => buf = segBytes dir s.disk (.plain tail))
        (R := fun _ _ => True) (C := fun _ => True) (H := False) ?_ fun buf s₂ m₂ hs₂ hbuf => ?_
      · rw [hd₁]
        exact AccretionDb.Wal.wpE_readAll trivial rfl fun o hf => hf.elim
      · subst hbuf
        rw [Act.unwrap_bind (Checked.range_zero (hlen ▸ Nat.le_of_not_le hdone))]

variable [Hashing]

theorem exec_recoverLoop : ∀ (ns : List SegName), (∀ n ∈ ns, Short s (n.path dir)) →
    ∀ (result : Recovered) {s' : SimFs} (m : M), s'.Tidy → s'.disk = s.disk →
      s'.exec (recoverLoop (ns.map fun n => (n.id, n.path dir)) result) m =
        s'.exec (AccretionDb.Wal.recoverLoop (ns.map fun n => (n.id, n.path dir)) result) m := by
  intro ns
  induction ns with
  | nil => exact fun _ _ _ _ _ _ => rfl
  | cons n ns ih =>
    intro hshort result s' m hs hd
    have hn := hshort n List.mem_cons_self
    rw [List.map_cons, recoverLoop, AccretionDb.Wal.recoverLoop,
      SimFs.exec_bind_congr (exec_readAll hs (hn.congr hd))]
    refine SimFs.exec_congr hs (Q := fun buf σ => σ.1 = s.disk ∧ buf = segBytes dir s.disk n)
      (R := fun _ _ => True) (C := fun _ => True) (H := False) ?_ fun buf s₁ m₁ hs₁ hq => ?_
    · rw [hd]
      exact AccretionDb.Wal.wpE_readAll trivial ⟨rfl, rfl⟩ fun o hf => hf.elim
    · obtain ⟨hd₁, rfl⟩ := hq
      rw [Act.unwrap_bind (scanBuffer_eq hn.segBytes _)]
      obtain ⟨ps, stop, r, hscan⟩ := Scan.exists_scan (segBytes dir s.disk n)
      rw [hscan.scanBuffer_eq]
      dsimp only
      by_cases hr : r ≠ .clean
      · rw [if_pos hr, if_pos hr]
      · rw [if_neg hr, if_neg hr]
        exact ih (fun n h => hshort n (List.mem_cons_of_mem _ h)) _ m₁ hs₁ hd₁

theorem exec_recover (hs : s.Tidy) (hshort : ∀ n : SegName, n.Fits → Short s (n.path dir)) :
    s.exec (recover dir) m = s.exec (AccretionDb.Wal.recover dir) m := by
  have hns := AccretionDb.Wal.Segments.of_lists (SimFs.lists_refines hs dir)
  generalize AccretionDb.Wal.namesOf _ = ns at hns
  refine SimFs.exec_congr hs (Q := fun segments σ => σ.1 = s.disk ∧
    segments = ns.map fun n => (n.id, n.path dir)) (R := fun _ _ => True)
    (C := fun _ => True) (H := False) ?_ fun segments s₁ m₁ hs₁ hq => ?_
  · exact AccretionDb.Wal.wpE_listSegments trivial hns ⟨rfl, rfl⟩ fun hf => hf.elim
  · obtain ⟨hd₁, rfl⟩ := hq
    exact exec_recoverLoop ns (fun n hn => hshort n ((hns.mem n).mp hn).1) _ m₁ hs₁ hd₁

/-- The segment where the replay ends is one of those that are there. -/
theorem replay_tail_mem : ∀ (bufs : List (Nat × Bytes)) (result : Recovered) {t : Nat},
    (AccretionDb.Wal.replay bufs result).tailSegment = some t →
      result.tailSegment = some t ∨ t ∈ bufs.map Prod.fst := by
  intro bufs
  induction bufs with
  | nil => exact fun result t h => Or.inl h
  | cons x bufs ih =>
    intro result t h
    obtain ⟨id, buf⟩ := x
    obtain ⟨ps, stop, r, hscan⟩ := Scan.exists_scan buf
    have hid : some id = some t → t ∈ ((id, buf) :: bufs).map Prod.fst := by
      intro he
      rw [Option.some.inj he]
      exact List.mem_cons_self
    rw [AccretionDb.Wal.replay_cons hscan] at h
    by_cases hr : r ≠ .clean
    · rw [if_pos hr] at h
      exact Or.inr (hid h)
    · rw [if_neg hr] at h
      rcases ih _ h with h | h
      · exact Or.inr (hid h)
      · exact Or.inr (List.mem_cons_of_mem _ h)

/-- The payloads of a log have room in its segments. -/
theorem length_frames_replay_le : ∀ (bufs : List (Nat × Bytes)) (result : Recovered),
    (AccretionDb.Wal.frames (AccretionDb.Wal.replay bufs result).records).length ≤
      (AccretionDb.Wal.frames result.records).length + (bufs.map fun x => x.2.length).sum := by
  intro bufs
  induction bufs with
  | nil => exact fun result => Nat.le_add_right _ _
  | cons x bufs ih =>
    intro result
    obtain ⟨id, buf⟩ := x
    obtain ⟨ps, stop, r, hscan⟩ := Scan.exists_scan buf
    obtain ⟨_, hstop, hle, _⟩ := hscan.stop_eq
    have hin := hle (Nat.zero_le _)
    have hsum : (AccretionDb.Wal.frames (result.records ++ ps)).length =
        (AccretionDb.Wal.frames result.records).length + (AccretionDb.Wal.frames ps).length := by
      rw [AccretionDb.Wal.frames_append, List.length_append]
    rw [AccretionDb.Wal.replay_cons hscan, List.map_cons, List.sum_cons]
    by_cases hr : r ≠ .clean
    · rw [if_pos hr]
      dsimp only
      omega
    · have hrest := ih ⟨result.records ++ ps, some id, stop, r⟩
      rw [if_neg hr]
      dsimp only at hrest ⊢
      omega

omit [Hashing] in
/-- Segments whose lengths add up to a word are short. -/
theorem short_of_sum {bufs : List (SegName × Bytes)}
    (hb : AccretionDb.Wal.Buffers dir s.disk bufs)
    (hsum : (bufs.map fun x => x.2.length).sum < 2 ^ 64) (n : SegName) (hn : n.Fits) :
    Short s (n.path dir) := by
  intro b hlive
  have hmem : (n, b.content) ∈ bufs :=
    (hb.mem n b.content).mpr ⟨hn, by rw [hlive, Option.map_some]⟩
  have hle := List.le_sum_of_mem (List.mem_map_of_mem (f := fun x => x.2.length) hmem)
  exact Nat.lt_of_le_of_lt hle hsum

/-- **Opening the log never panics**, whatever is in its segments. -/
theorem exec_open {self : Config} (hs : s.Tidy)
    (hshort : ∀ n : SegName, n.Fits → Short s (n.path self.dir)) :
    s.exec («open» self) m = s.exec (AccretionDb.Wal.open self) m := by
  have hns := AccretionDb.Wal.Segments.of_lists (SimFs.lists_refines hs self.dir)
  generalize AccretionDb.Wal.namesOf _ = ns at hns
  rw [«open», AccretionDb.Wal.open, SimFs.exec_bind_congr (exec_recover hs hshort)]
  refine SimFs.exec_congr hs (Q := fun r σ => σ.1 = s.disk ∧
    r = AccretionDb.Wal.replay (ns.map fun n => (n.id, segBytes self.dir s.disk n)) .default)
    (R := fun _ _ => True) (C := fun _ => True) (H := False) (AccretionDb.Wal.wpE_recover trivial
      hns ⟨rfl, rfl⟩ fun o hf => hf.elim) fun recovered s₁ m₁ hs₁ hq => ?_
  obtain ⟨hd₁, hrec⟩ := hq
  change s₁.disk = s.disk at hd₁
  by_cases hstop : recovered.stopReason ≠ .clean
  · rw [if_pos hstop, if_pos hstop]
    cases ht : recovered.tailSegment with
    | none => rfl
    | some t =>
      rw [hrec] at ht
      have hmem := (replay_tail_mem _ _ ht).resolve_left nofun
      rw [List.map_map] at hmem
      obtain ⟨n, hn, rfl⟩ := List.mem_map.mp hmem
      have hplain := hshort _ ((hns.mem n).mp hn).1.plain
      exact SimFs.exec_bind_congr (exec_truncateTail hs₁ (hplain.congr hd₁)) _
  · rw [if_neg hstop, if_neg hstop]

end Runs

end AccretionDb.Debug.Wal
