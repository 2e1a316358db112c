import AccretionDb.Wal.Frame
import AccretionDb.Wal.Segment

/-! # WAL recovery

`scanBuffer` reads the frames of one segment up to the first place where none
decodes, and `recover` reads the segments in id order up to the first one that
does not end cleanly.  `Scan` is the trace of a scan; `replay` is what `recover`
computes from the segments' bytes.
-/

namespace AccretionDb.Wal

open CrashLogic

inductive StopReason
  | clean
  | truncated
  | badCrc
  deriving DecidableEq, Repr

structure Recovered where
  records : List Bytes
  tailSegment : Option Nat
  tailValidLen : Nat
  stopReason : StopReason
  deriving DecidableEq, Repr

def Recovered.default : Recovered := ⟨[], none, 0, .clean⟩

def FrameError.stop : FrameError → StopReason
  | truncated => .truncated
  | badCrc => .badCrc

theorem FrameError.stop_ne_clean (e : FrameError) : e.stop ≠ .clean := by
  cases e <;> exact nofun

variable [Hashing]

/-- The loop of `scan_buffer`; a frame has at least its header, so as many rounds
as the buffer has bytes, and one more, are enough. -/
def scanLoop (buf : Bytes) : Nat → Nat → List Bytes → List Bytes × Nat × StopReason
  | 0, off, out => (out, off, .clean)
  | rounds + 1, off, out =>
    if off = buf.length then (out, off, .clean)
    else match decode buf off with
      | .ok f => scanLoop buf rounds (off + f.totalLen) (out ++ [f.payload])
      | .error e => (out, off, e.stop)

def scanBuffer (buf : Bytes) (out : List Bytes) : List Bytes × Nat × StopReason :=
  scanLoop buf (buf.length + 1) 0 out

section Programs

variable {M : Type}

def recoverLoop : List (Nat × Path) → Recovered → Io M StorageError Recovered
  | [], result => pure result
  | (id, path) :: rest, result => do
    let buf ← readAll path
    let (records, validLen, reason) := scanBuffer buf result.records
    let result : Recovered := ⟨records, some id, validLen, reason⟩
    -- a segment that stops early is where the log truly ends
    if reason ≠ .clean then pure result else recoverLoop rest result

/-- Replay every segment of the directory in id order. -/
def recover (dir : Dir) : Io M StorageError Recovered := do
  let segments ← listSegments dir
  recoverLoop segments .default

def tmpPath (dir : Dir) (id : Nat) : Path := ⟨dir, .walTmp id⟩

/-- Rewrite the tail segment to its valid length. -/
def truncateTail (dir : Dir) (tailSegment validLen : Nat) : Io M StorageError Unit := do
  let path := segmentPath dir tailSegment
  let current ← storage (.len path)
  if validLen ≥ current then pure ()
  else do
    let buf ← readAll path
    let keep := buf.take validLen
    let tmp := tmpPath dir tailSegment
    let _ ← Act.attempt (storage (.delete tmp))
    storage (.create tmp)
    let _at ← storage (.append tmp keep)
    storage (.syncFile tmp)
    storage (.rename tmp path)
    storage (.syncDir dir)

end Programs

/-! ### The trace of a scan -/

/-- Scanning from `off` yields the payloads and stops at `stop`. -/
inductive Scan (buf : Bytes) : Nat → List Bytes → Nat → StopReason → Prop
  | done {off : Nat} (hoff : off = buf.length) : Scan buf off [] off .clean
  | bad {off : Nat} {e : FrameError} (hoff : off ≠ buf.length) (h : decode buf off = .error e) :
      Scan buf off [] off e.stop
  | frame {off stop : Nat} {f : DecodedFrame} {ps : List Bytes} {r : StopReason}
      (h : decode buf off = .ok f) (tail : Scan buf (off + f.totalLen) ps stop r) :
      Scan buf off (f.payload :: ps) stop r

namespace Scan

theorem decode_totalLen_pos {buf : Bytes} {off : Nat} {f : DecodedFrame}
    (h : decode buf off = .ok f) : 0 < f.totalLen := by
  have := (decode_eq_ok h).1
  simp only [HEADER_SZ, LEN_SZ, CRC_SZ] at this
  omega

theorem exists_of_le {buf : Bytes} :
    ∀ n off, buf.length - off ≤ n → off ≤ buf.length → ∃ ps stop r, Scan buf off ps stop r := by
  intro n
  induction n with
  | zero =>
    intro off hn hle
    exact ⟨[], off, .clean, .done (by omega)⟩
  | succ n ih =>
    intro off hn hle
    by_cases hoff : off = buf.length
    · exact ⟨[], off, .clean, .done hoff⟩
    · cases hd : decode buf off with
      | error e => exact ⟨[], off, e.stop, .bad hoff hd⟩
      | ok f =>
        have hpos := decode_totalLen_pos hd
        have hend := (decode_eq_ok hd).2.1
        obtain ⟨ps, stop, r, h⟩ := ih (off + f.totalLen) (by omega) hend
        exact ⟨f.payload :: ps, stop, r, .frame hd h⟩

theorem scanLoop_eq {buf : Bytes} {off : Nat} {ps : List Bytes} {stop : Nat} {r : StopReason}
    (h : Scan buf off ps stop r) :
    ∀ rounds out, off ≤ buf.length → buf.length - off < rounds →
      scanLoop buf rounds off out = (out ++ ps, stop, r) := by
  induction h with
  | done hoff =>
    intro rounds out _ hr
    obtain ⟨rounds, rfl⟩ : ∃ k, rounds = k + 1 := ⟨rounds - 1, by omega⟩
    rw [scanLoop, if_pos hoff, List.append_nil]
  | bad hoff hd =>
    intro rounds out _ hr
    obtain ⟨rounds, rfl⟩ : ∃ k, rounds = k + 1 := ⟨rounds - 1, by omega⟩
    rw [scanLoop, if_neg hoff, hd, List.append_nil]
  | @frame off stop f ps r hd tail ih =>
    intro rounds out hle hr
    obtain ⟨rounds, rfl⟩ : ∃ k, rounds = k + 1 := ⟨rounds - 1, by omega⟩
    have hpos := decode_totalLen_pos hd
    have hend := (decode_eq_ok hd).2.1
    have hoff : off ≠ buf.length := by omega
    rw [scanLoop, if_neg hoff, hd]
    show scanLoop buf rounds (off + f.totalLen) (out ++ [f.payload]) = _
    rw [ih rounds _ hend (by omega), List.append_assoc, List.singleton_append]

/-- **The scan terminates**, with what its trace says. -/
theorem scanBuffer_eq {buf : Bytes} {ps : List Bytes} {stop : Nat} {r : StopReason}
    (h : Scan buf 0 ps stop r) (out : List Bytes) : scanBuffer buf out = (out ++ ps, stop, r) :=
  h.scanLoop_eq _ _ (Nat.zero_le _) (by omega)

theorem exists_scan (buf : Bytes) : ∃ ps stop r, Scan buf 0 ps stop r :=
  exists_of_le buf.length 0 (by omega) (Nat.zero_le _)

/-- What is read fits its length field, and the frames read fill the bytes up to
the stop. -/
theorem stop_eq {buf : Bytes} {off : Nat} {ps : List Bytes} {stop : Nat} {r : StopReason}
    (h : Scan buf off ps stop r) : Fits ps ∧ stop = off + (frames ps).length ∧
      (off ≤ buf.length → stop ≤ buf.length) ∧ (r = .clean ↔ stop = buf.length) := by
  induction h with
  | done hoff => exact ⟨nofun, by simp, fun h => h, by simp [hoff]⟩
  | bad hoff hd =>
    refine ⟨nofun, by simp, fun h => h, ?_⟩
    exact ⟨fun h => absurd h (FrameError.stop_ne_clean _), fun h => absurd h hoff⟩
  | @frame off stop f ps r hd tail ih =>
    obtain ⟨h1, h2, h3, h4⟩ := ih
    obtain ⟨hlen, hend, hfits⟩ := decode_eq_ok hd
    refine ⟨?_, ?_, fun _ => h3 hend, h4⟩
    · intro p hp
      rcases List.mem_cons.mp hp with rfl | hp
      · exact hfits
      · exact h1 p hp
    · rw [frames_cons, List.length_append, length_encode, h2, hlen]
      omega

theorem decode_take {buf : Bytes} {off n : Nat} {f : DecodedFrame} (h : decode buf off = .ok f)
    (hn : off + f.totalLen ≤ n) (rest : Bytes) : decode (buf.take n ++ rest) off = .ok f := by
  obtain ⟨hlen, hend, -⟩ := decode_eq_ok h
  have hmin : (buf.take n).length = min n buf.length := List.length_take
  have hsl : ∀ a k, a + k ≤ off + f.totalLen → slice (buf.take n ++ rest) a k = slice buf a k := by
    intro a k hk
    have h1 : a + k ≤ (buf.take n).length := by omega
    have h2 := slice_append_left (b := rest) h1
    have h3 := slice_append_left (b := buf.drop n) h1
    rw [List.take_append_drop] at h3
    rw [h2, h3]
  have h8 : HEADER_SZ ≤ f.totalLen := by omega
  have hpay : f.payload.length = leNat (slice buf off LEN_SZ) := by
    simp only [decode] at h
    split at h
    · cases h
    · split at h
      · cases h
      · split at h
        · cases h
        · injection h with h
          subst h
          exact length_slice_of_le (by omega)
  have hL : LEN_SZ ≤ HEADER_SZ := by decide
  have hC : LEN_SZ + CRC_SZ = HEADER_SZ := rfl
  have e1 := hsl off LEN_SZ (by omega)
  have e2 := hsl (off + LEN_SZ) CRC_SZ (by omega)
  have e3 := hsl (off + HEADER_SZ) (leNat (slice buf off LEN_SZ)) (by omega)
  have hl : (buf.take n ++ rest).length = min n buf.length + rest.length := by
    rw [List.length_append, hmin]
  have g1 : ¬ off + HEADER_SZ > (buf.take n ++ rest).length := by omega
  have g2 : ¬ off + HEADER_SZ + leNat (slice buf off LEN_SZ) > (buf.take n ++ rest).length := by
    omega
  have g1' : ¬ off + HEADER_SZ > buf.length := by omega
  have g2' : ¬ off + HEADER_SZ + leNat (slice buf off LEN_SZ) > buf.length := by omega
  simp only [decode, if_neg g1', if_neg g2'] at h
  simp only [decode, e1, e2, if_neg g1, if_neg g2, e3]
  exact h

/-- **Cutting at the stop and writing frames behind it is clean again.** -/
theorem extend {buf : Bytes} {off : Nat} {ps : List Bytes} {stop : Nat} {r : StopReason}
    (h : Scan buf off ps stop r) {rest : Bytes} {qs : List Bytes} {stop' : Nat} {r' : StopReason}
    (hrest : Scan (buf.take stop ++ rest) stop qs stop' r') :
    Scan (buf.take stop ++ rest) off (ps ++ qs) stop' r' := by
  induction h with
  | done hoff => exact hrest
  | bad hoff hd => exact hrest
  | @frame off stop f ps r hd tail ih =>
    have hstop := (stop_eq tail).2.1
    exact .frame (decode_take hd (by omega) rest) (ih hrest)

/-- A row of frames is read whole. -/
theorem of_frames (pre : Bytes) {ps : List Bytes} (h : Fits ps) {rest : Bytes} {qs : List Bytes}
    {stop : Nat} {r : StopReason}
    (hrest : Scan (pre ++ frames ps ++ rest) (pre ++ frames ps).length qs stop r) :
    Scan (pre ++ frames ps ++ rest) pre.length (ps ++ qs) stop r := by
  induction ps generalizing pre with
  | nil =>
    rw [frames_nil, List.append_nil] at hrest
    rw [frames_nil, List.append_nil]
    exact hrest
  | cons p ps ih =>
    have hp : p.length < 2 ^ 32 := h p List.mem_cons_self
    have hbuf : pre ++ frames (p :: ps) ++ rest = (pre ++ encode p) ++ frames ps ++ rest := by
      simp only [frames_cons, List.append_assoc]
    have hd : decode (pre ++ frames (p :: ps) ++ rest) pre.length =
        .ok ⟨p, HEADER_SZ + p.length⟩ := by
      have := decode_append pre (encode p ++ (frames ps ++ rest)) 0
      rw [Nat.add_zero, decode_encode hp] at this
      rw [hbuf]
      simpa only [List.append_assoc] using this
    have hlen : (pre ++ frames (p :: ps)).length = ((pre ++ encode p) ++ frames ps).length := by
      simp only [frames_cons, List.append_assoc]
    rw [hbuf, hlen] at hrest
    have htail := ih (pre ++ encode p) (fun q hq => h q (List.mem_cons_of_mem p hq)) hrest
    rw [List.length_append, length_encode, ← hbuf] at htail
    exact .frame hd htail

theorem of_frames_clean {ps : List Bytes} (h : Fits ps) :
    Scan (frames ps) 0 ps (frames ps).length .clean := by
  have hdone : Scan ([] ++ frames ps ++ []) ([] ++ frames ps).length [] (frames ps).length .clean := by
    simp only [List.nil_append, List.append_nil]
    exact .done rfl
  have := of_frames [] h hdone
  simpa only [List.nil_append, List.append_nil, List.length_nil] using this

/-- A row of frames is read whole up to a place where none decodes. -/
theorem of_frames_error {ps : List Bytes} {junk : Bytes} {e : FrameError} (h : Fits ps)
    (hj : junk ≠ []) (he : decode (frames ps ++ junk) (frames ps).length = .error e) :
    Scan (frames ps ++ junk) 0 ps (frames ps).length e.stop := by
  have hoff : (frames ps).length ≠ (frames ps ++ junk).length := by
    intro hl
    rw [List.length_append] at hl
    exact hj (List.length_eq_zero_iff.mp (by omega))
  have hbad : Scan ([] ++ frames ps ++ junk) ([] ++ frames ps).length [] (frames ps).length e.stop :=
    by simpa only [List.nil_append] using Scan.bad hoff he
  have := of_frames [] h hbad
  simpa only [List.nil_append, List.append_nil, List.length_nil] using this

/-- The scan of bytes that lie behind others. -/
theorem behind (pre : Bytes) {buf : Bytes} {off : Nat} {ps : List Bytes} {stop : Nat}
    {r : StopReason} (h : Scan buf off ps stop r) :
    Scan (pre ++ buf) (pre.length + off) ps (pre.length + stop) r := by
  induction h with
  | done hoff => exact .done (by rw [List.length_append, hoff])
  | @bad off e hoff hd =>
    refine .bad (fun hl => hoff ?_) ((decode_append pre buf off).trans hd)
    rw [List.length_append] at hl
    omega
  | @frame off stop f ps r hd tail ih =>
    rw [← Nat.add_assoc] at ih
    exact .frame ((decode_append pre buf off).trans hd) ih

/-- A row of frames is read whole, and then what lies behind it. -/
theorem of_frames_behind {ps : List Bytes} (h : Fits ps) {junk : Bytes} {qs : List Bytes}
    {stop : Nat} {r : StopReason} (hj : Scan junk 0 qs stop r) :
    Scan (frames ps ++ junk) 0 (ps ++ qs) ((frames ps).length + stop) r := by
  have hrest := hj.behind (frames ps)
  rw [Nat.add_zero] at hrest
  have := @of_frames _ [] _ h junk qs _ _ (by simpa only [List.nil_append] using hrest)
  simpa only [List.nil_append, List.length_nil] using this

theorem of_frames_dead {ps : List Bytes} {junk : Bytes} (h : Fits ps) (hd : Dead ps junk) :
    ∃ r, r ≠ .clean ∧ Scan (frames ps ++ junk) 0 ps (frames ps).length r := by
  obtain ⟨hj, e, he⟩ := hd
  exact ⟨e.stop, FrameError.stop_ne_clean e, of_frames_error h hj he⟩

end Scan

/-! ### The replay of the segments' bytes -/

/-- What `recover` makes of the segments. -/
def replay : List (Nat × Bytes) → Recovered → Recovered
  | [], result => result
  | (id, buf) :: rest, result =>
    let (records, validLen, reason) := scanBuffer buf result.records
    if reason ≠ .clean then ⟨records, some id, validLen, reason⟩
    else replay rest ⟨records, some id, validLen, reason⟩

theorem replay_cons {buf : Bytes} {ps : List Bytes} {stop : Nat} {r : StopReason}
    (h : Scan buf 0 ps stop r) (id : Nat) (rest : List (Nat × Bytes)) (result : Recovered) :
    replay ((id, buf) :: rest) result =
      if r ≠ .clean then ⟨result.records ++ ps, some id, stop, r⟩
      else replay rest ⟨result.records ++ ps, some id, stop, r⟩ := by
  rw [replay, h.scanBuffer_eq]

/-- The bytes of a segment that is there. -/
def segBytes (dir : Dir) (d : Disk) (n : SegName) : Bytes :=
  (d (n.path dir)).live.elim [] Blob.content

section Specs

variable {M : Type} {e : Faults} {strict H : Prop} {C : Disk × M → Prop} {d : Disk} {m : M}

theorem wpE_recoverLoop {dir : Dir} {Q : Recovered → Disk × M → Prop}
    {R : StorageError → Disk × M → Prop} (hC : C (d, m))
    (herr : ∀ o, e.fail o → ∀ msg, R (.io o.target msg) (d, m)) :
    ∀ (ns : List SegName) (result : Recovered),
      Q (replay (ns.map fun n => (n.id, segBytes dir d n)) result) (d, m) →
      wpE (Disk.sem e) strict H C
        (recoverLoop (ns.map fun n => (n.id, n.path dir)) result) Q R (d, m) := by
  intro ns
  induction ns with
  | nil => exact fun result hok => wpE_pure.mpr ⟨hC, hok⟩
  | cons n ns ih =>
    intro result hok
    obtain ⟨ps, stop, r, hs⟩ := Scan.exists_scan (segBytes dir d n)
    have hscan : scanBuffer ((d (n.path dir)).live.elim [] Blob.content) result.records =
        (result.records ++ ps, stop, r) := hs.scanBuffer_eq _
    rw [List.map_cons, replay_cons hs] at hok
    refine wpE_bind.mpr (wpE_readAll hC ?_ herr)
    simp only [hscan]
    by_cases hr : r ≠ .clean
    · rw [if_pos hr] at hok ⊢
      exact wpE_pure.mpr ⟨hC, hok⟩
    · rw [if_neg hr] at hok ⊢
      exact ih _ hok

theorem wpE_recover {dir : Dir} {ns : List SegName} {Q : Recovered → Disk × M → Prop}
    {R : StorageError → Disk × M → Prop} (hC : C (d, m)) (hns : Segments dir d ns)
    (hok : Q (replay (ns.map fun n => (n.id, segBytes dir d n)) .default) (d, m))
    (herr : ∀ o, e.fail o → ∀ msg, R (.io o.target msg) (d, m)) :
    wpE (Disk.sem e) strict H C (recover dir) Q R (d, m) :=
  wpE_bind.mpr (wpE_listSegments hC hns (wpE_recoverLoop hC herr ns _ hok)
    fun hf msg => herr _ hf msg)

theorem wpE_recover_ids {dir : Dir} {ids : List Nat} {Q : Recovered → Disk × M → Prop}
    {R : StorageError → Disk × M → Prop} (hC : C (d, m)) (hids : SegIds dir d ids)
    (hok : Q (replay (ids.map fun id => (id, segBytes dir d (.plain id))) .default) (d, m))
    (herr : ∀ o, e.fail o → ∀ msg, R (.io o.target msg) (d, m)) :
    wpE (Disk.sem e) strict H C (recover dir) Q R (d, m) :=
  wpE_recover hC hids.segments (by rwa [List.map_map]) herr

end Specs

end AccretionDb.Wal
