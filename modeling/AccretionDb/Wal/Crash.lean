import AccretionDb.Wal.Spec
import AccretionDb.Storage.Exec

/-! # Prefix consistency

One client opens the log, appends, resets and closes it, and the power may go at
any moment.  `World` is the simulator, the open log if there is one, and what the
client knows: the payloads appended since the last reset that took effect, how
many of them were acknowledged durable, and whether a reset was under way when the
power went.  A step of the world is one call, whole or cut short.
-/

namespace AccretionDb.Wal

open CrashLogic

structure World where
  fs : SimFs
  wal : Option State
  since : List Bytes
  acked : Nat
  resetting : Bool

namespace World

/-- A fresh simulator; the stream is the generator's, which picks the tears. -/
def start (rng : Nat → Nat) : World := ⟨.new rng, none, [], 0, false⟩

section Hashed

variable [Hashing]

/-- The damage of a power loss in this state is one the CRC catches. -/
def CrcCatches (cfg : Config) (fs : SimFs) : Prop :=
  ∀ id, fs.TornAt RejectsDamage (segmentPath cfg.dir id)

/-- One call of the client, or a power loss in it.  `ok` says which payloads the
client appends.  A call that is `Exact` gives no segment an id that is no `u64`. -/
inductive Step (cfg : Config) (ok : Bytes → Prop) : World → World → Prop
  | opened {fs fs' : SimFs} {since : List Bytes} {acked : Nat} {resetting : Bool} {st : State}
      {rec : Recovered} (h : fs.exec (Wal.open cfg) () = some (.ok (st, rec), fs', ())) :
      Step cfg ok ⟨fs, none, since, acked, resetting⟩
        ⟨fs', some st, rec.records, min acked rec.records.length, false⟩
  | openCut {fs fs' : SimFs} {since : List Bytes} {acked : Nat} {resetting : Bool}
      (h : SimFs.Stops (Wal.open cfg) fs () fs' ()) (hcrc : CrcCatches cfg fs') :
      Step cfg ok ⟨fs, none, since, acked, resetting⟩ ⟨fs'.crash, none, since, acked, resetting⟩
  | appended {fs fs' : SimFs} {since : List Bytes} {acked : Nat} {resetting : Bool}
      {st st' : State} {p : Bytes} (hp : ok p) (hx : SimFs.Exact (append cfg p) fs st)
      (h : fs.exec (append cfg p) st = some (.ok (), fs', st')) :
      Step cfg ok ⟨fs, some st, since, acked, resetting⟩
        ⟨fs', some st', since ++ [p], if cfg.durability.isDurable then since.length + 1 else acked,
          resetting⟩
  | appendCut {fs fs' : SimFs} {since : List Bytes} {acked : Nat} {resetting : Bool}
      {st st' : State} {p : Bytes} (hp : ok p) (hx : SimFs.Exact (append cfg p) fs st)
      (h : SimFs.Stops (append cfg p) fs st fs' st') (hcrc : CrcCatches cfg fs') :
      Step cfg ok ⟨fs, some st, since, acked, resetting⟩
        ⟨fs'.crash, none, since ++ [p], acked, resetting⟩
  | resetDone {fs fs' : SimFs} {since : List Bytes} {acked : Nat} {resetting : Bool}
      {st st' : State} (hx : SimFs.Exact (reset cfg) fs st)
      (h : fs.exec (reset cfg) st = some (.ok (), fs', st')) :
      Step cfg ok ⟨fs, some st, since, acked, resetting⟩ ⟨fs', some st', [], 0, false⟩
  | resetCut {fs fs' : SimFs} {since : List Bytes} {acked : Nat} {resetting : Bool}
      {st st' : State} (hx : SimFs.Exact (reset cfg) fs st)
      (h : SimFs.Stops (reset cfg) fs st fs' st') (hcrc : CrcCatches cfg fs') :
      Step cfg ok ⟨fs, some st, since, acked, resetting⟩ ⟨fs'.crash, none, since, acked, true⟩
  | closed {fs : SimFs} {since : List Bytes} {acked : Nat} {resetting : Bool} {st : State} :
      Step cfg ok ⟨fs, some st, since, acked, resetting⟩ ⟨fs, none, since, acked, resetting⟩
  | crashed {fs : SimFs} {wal : Option State} {since : List Bytes} {acked : Nat}
      {resetting : Bool} (hcrc : CrcCatches cfg fs) :
      Step cfg ok ⟨fs, wal, since, acked, resetting⟩ ⟨fs.crash, none, since, acked, resetting⟩

/-- The worlds a client that appends `ok` payloads can reach. -/
def Reachable (cfg : Config) (ok : Bytes → Prop) (w : World) : Prop :=
  ∃ rng, Relation.ReflTransGen (Step cfg ok) (start rng) w

/-- What may be found of `since`: a prefix with all that was acknowledged, or, if a
reset was under way, nothing. -/
def Found (w : World) (rs : List Bytes) : Prop :=
  rs <+: w.since ∧ w.acked ≤ rs.length ∨ w.resetting = true ∧ rs = []

/-- Opening the log answers, and finds what may be found. -/
def Recovers (cfg : Config) (w : World) : Prop :=
  ∃ st rec fs', w.fs.exec (Wal.open cfg) () = some (.ok (st, rec), fs', ()) ∧ w.Found rec.records

/-! ### The invariant -/

/-- What the disk holds for a power loss. -/
def Spared (cfg : Config) (w : World) (d : Disk) : Prop :=
  DurLog cfg.dir d w.acked w.since ∨ w.resetting = true ∧ DurLog cfg.dir d 0 []

/-- What the disk holds for the client. -/
def Consistent (cfg : Config) (w : World) : Prop :=
  match w.wal with
  | some st => ∃ L, Ready cfg w.fs.disk st L [] ∧ w.since = L.log ∧ w.acked ≤ L.durableLen
  | none =>
    (∃ L, Holds cfg.dir w.fs.disk L ∧ w.since = L.log ∧ w.acked ≤ L.durableLen) ∨
    ∃ gs, Kept cfg.dir w.fs.disk gs ∧ (∀ s ∈ gs, s.2.tail = []) ∧
      (Survives (gs.map Prod.snd) w.acked w.since ∨
        w.resetting = true ∧ Survives (gs.map Prod.snd) 0 [])

/-- What a consistent log has to offer a power loss. -/
theorem Consistent.spared {cfg : Config} {w : World} (h : Consistent cfg w) :
    w.Spared cfg w.fs.disk := by
  obtain ⟨fs, wal, since, acked, resetting⟩ := w
  cases wal with
  | some st =>
    obtain ⟨L, hready, hsince, hacked⟩ := h
    exact Or.inl (hready.holds.spares (hsince ▸ List.prefix_rfl) hacked)
  | none =>
    rcases h with ⟨L, hL, hsince, hacked⟩ | ⟨gs, hk, _, hs | ⟨hb, hs⟩⟩
    · exact Or.inl (hL.spares (hsince ▸ List.prefix_rfl) hacked)
    · exact Or.inl ⟨gs, hk.durSegs, hs⟩
    · exact Or.inr ⟨hb, gs, hk.durSegs, hs⟩

/-- A power loss leaves what the crash condition of the call promised. -/
theorem consistent_crash {cfg : Config} {w : World} {fs : SimFs} (ht : fs.Tidy)
    (hcrc : CrcCatches cfg fs) (h : w.Spared cfg fs.disk) :
    Consistent cfg ⟨fs.crash, none, w.since, w.acked, w.resetting⟩ := by
  have hr : ∀ id g b, (fs.disk (segmentPath cfg.dir id)).durable = some g →
      fs.crash.disk (segmentPath cfg.dir id) = .kept b → RejectsDamage g.content b.content :=
    fun id g b hg hb => (hcrc id).of_disk ht hg hb
  rcases h with h | ⟨hb, h⟩
  · obtain ⟨gs, h1, h2, h3⟩ := h.crash (SimFs.crash_refines ht) hr
    exact Or.inr ⟨gs, h1, h2, Or.inl h3⟩
  · obtain ⟨gs, h1, h2, h3⟩ := h.crash (SimFs.crash_refines ht) hr
    exact Or.inr ⟨gs, h1, h2, Or.inr ⟨hb, h3⟩⟩

/-- What opening the log leads to. -/
def Opened (cfg : Config) (w : World) (x : State × Recovered) (d : Disk) : Prop :=
  (∃ L, Ready cfg d x.1 L [] ∧ x.2.records = L.log ∧
    min w.acked x.2.records.length ≤ L.durableLen) ∧ w.Found x.2.records

/-- **Opening a consistent log** answers and finds what may be found, and a power
loss on the way finds the log consistent. -/
theorem Consistent.open {cfg : Config} {w : World} (h : Consistent cfg w) (hw : w.wal = none) :
    wpE (Disk.sem Faults.none) False False (fun σ : Disk × Unit => w.Spared cfg σ.1) (Wal.open cfg)
      (fun x σ => w.Opened cfg x σ.1) (fun _ _ => False) (w.fs.disk, ()) := by
  have he := Tame.none cfg.dir
  have hI := Beside.true cfg.dir
  rw [Consistent, hw] at h
  -- every survivor of `k` and `all` is a prefix of one of the two lists
  have hcrashed : ∀ gs (k : Nat) (all : List Bytes), Kept cfg.dir w.fs.disk gs →
      (∀ s ∈ gs, s.2.tail = []) → Survives (gs.map Prod.snd) k all →
      (∀ d, DurLog cfg.dir d k all → w.Spared cfg d) →
      (∀ rs : List Bytes, rs <+: all → k ≤ rs.length → w.Found rs) →
      wpE (Disk.sem Faults.none) False False (fun σ : Disk × Unit => w.Spared cfg σ.1)
        (Wal.open cfg) (fun x σ => w.Opened cfg x σ.1) (fun _ _ => False) (w.fs.disk, ()) := by
    intro gs k all hk htail hs hdur hrs
    refine wpE_open he hI (fun d' hd' _ => hdur d' hd') hk htail hs trivial
      (fun d' st rec L hready hpend hrec hall hk _ => ?_) fun hs => absurd hs Faults.not_short_none
    rw [← hrec] at hall hk
    refine ⟨⟨L, hready, hrec, ?_⟩, hrs _ hall hk⟩
    rw [Layout.durableLen_of_pending hpend, hrec]
    exact Nat.min_le_right _ _
  rcases h with ⟨L, hL, hsince, hacked⟩ | ⟨gs, hk, htail, hs | ⟨hb, hs⟩⟩
  · refine wpE_reopen he (Or.inl (hL.spares (hsince ▸ List.prefix_rfl) hacked)) hL
      fun st rec hready hrec _ => ⟨⟨L, hready, hrec, (Nat.min_le_left _ _).trans hacked⟩, Or.inl ?_⟩
    rw [hrec, hsince]
    exact ⟨List.prefix_rfl, hacked.trans L.durableLen_le⟩
  · exact hcrashed gs _ _ hk htail hs (fun d hd => Or.inl hd) fun rs h1 h2 => Or.inl ⟨h1, h2⟩
  · exact hcrashed gs _ _ hk htail hs (fun d hd => Or.inr ⟨hb, hd⟩)
      fun rs h1 _ => Or.inr ⟨hb, List.prefix_nil.mp h1⟩

theorem Consistent.recovers {cfg : Config} {w : World} (h : Consistent cfg w) (ht : w.fs.Tidy)
    (hw : w.wal = none) : Recovers cfg w := by
  obtain ⟨r, fs', m', he⟩ := SimFs.exec_total ht (h.open hw)
  obtain ⟨_, _, hpost⟩ := SimFs.exec_spec ht (h.open hw) he
  cases r with
  | ok x => exact ⟨x.1, x.2, fs', he, hpost.2⟩
  | error err => exact hpost.elim

theorem Consistent.append {cfg : Config} {fs : SimFs} {st : State} {since : List Bytes}
    {acked : Nat} {resetting : Bool} (h : Consistent cfg ⟨fs, some st, since, acked, resetting⟩)
    {p : Bytes} (hp : p.length < 2 ^ 32) :
    wpE (Disk.sem Faults.none) True True
      (fun σ => DurLog cfg.dir σ.1 acked (since ++ [p])) (append cfg p)
      (fun _ σ => ∃ L, Ready cfg σ.1 σ.2 L [] ∧ since ++ [p] = L.log ∧ acked ≤ L.durableLen ∧
        (cfg.durability.isDurable → since.length + 1 ≤ L.durableLen))
      (fun _ _ => True) (fs.disk, st) := by
  obtain ⟨L, hready, hsince, hacked⟩ := h
  change since = L.log at hsince
  subst hsince
  refine wpE_append_record (Tame.none cfg.dir) (Beside.true cfg.dir) trivial (fun d st hd _ => ?_)
    hp Fits.nil hready trivial (fun d' st' L' hready' hlog hlen hdur _ => ?_)
    fun _ err d' st' L' w' qs _ _ _ _ _ _ => trivial
  · rw [List.append_nil] at hd
    exact hd.mono hacked
  · rw [List.append_nil] at hlog
    refine ⟨L', hready', hlog.symm, hacked.trans hlen, fun hm => ?_⟩
    rw [Layout.durableLen_of_pending (hdur hm), hlog, List.length_append]
    exact Nat.le_refl _

theorem Consistent.reset {cfg : Config} {fs : SimFs} {st : State} {since : List Bytes}
    {acked : Nat} {resetting : Bool} (h : Consistent cfg ⟨fs, some st, since, acked, resetting⟩) :
    wpE (Disk.sem Faults.none) True True
      (fun σ => DurLog cfg.dir σ.1 acked since ∨ DurLog cfg.dir σ.1 0 []) (reset cfg)
      (fun _ σ => ∃ L, Ready cfg σ.1 σ.2 L [] ∧ L.log = []) (fun _ _ => True) (fs.disk, st) := by
  obtain ⟨L, hready, hsince, hacked⟩ := h
  change since = L.log at hsince
  subst hsince
  exact wpE_reset (fun ⟨_, hf⟩ => hf.elim) (Beside.true cfg.dir) trivial
    (fun d st hd _ => hd.imp (fun hd => hd.mono hacked) fun hd => hd) hready trivial
    fun d' st' L' hready' hlog _ _ => ⟨L', hready', hlog⟩

/-- **One call preserves consistency**, whole or cut short. -/
theorem Step.consistent {cfg : Config} {w w' : World}
    (hstep : Step cfg (fun p => p.length < 2 ^ 32) w w') (ht : w.fs.Tidy) (h : Consistent cfg w) :
    w'.fs.Tidy ∧ Consistent cfg w' := by
  cases hstep with
  | @opened fs fs' since acked resetting st rec hrun =>
    obtain ⟨ht', _, ⟨L, hready, hrec, hacked⟩, _⟩ := SimFs.exec_spec ht (h.open rfl) hrun
    exact ⟨ht', L, hready, hrec, hacked⟩
  | @openCut fs fs' since acked resetting hrun hcrc =>
    obtain ⟨ht', hspared⟩ := SimFs.stops_spec ht (h.open rfl) hrun
    exact ⟨SimFs.crash_tidy ht', consistent_crash ht' hcrc hspared⟩
  | @appended fs fs' since acked resetting st st' p hp hx hrun =>
    obtain ⟨ht', _, L, hready, hlog, hacked, hdur⟩ := SimFs.exec_exact ht (h.append hp) hx hrun
    refine ⟨ht', L, hready, hlog, ?_⟩
    show (if cfg.durability.isDurable = true then since.length + 1 else acked) ≤ L.durableLen
    by_cases hm : cfg.durability.isDurable = true
    · rw [if_pos hm]
      exact hdur hm
    · rw [if_neg hm]
      exact hacked
  | @appendCut fs fs' since acked resetting st st' p hp hx hrun hcrc =>
    obtain ⟨ht', hspared⟩ := SimFs.stops_exact ht (h.append hp) hx hrun
    exact ⟨SimFs.crash_tidy ht', consistent_crash
      (w := ⟨fs', none, since ++ [p], acked, resetting⟩) ht' hcrc (Or.inl hspared)⟩
  | @resetDone fs fs' since acked resetting st st' hx hrun =>
    obtain ⟨ht', _, L, hready, hlog⟩ := SimFs.exec_exact ht h.reset hx hrun
    exact ⟨ht', L, hready, hlog.symm, Nat.zero_le _⟩
  | @resetCut fs fs' since acked resetting st st' hx hrun hcrc =>
    obtain ⟨ht', hspared⟩ := SimFs.stops_exact ht h.reset hx hrun
    exact ⟨SimFs.crash_tidy ht', consistent_crash (w := ⟨fs', none, since, acked, true⟩) ht' hcrc
      (hspared.imp (fun h => h) fun h => ⟨rfl, h⟩)⟩
  | @closed fs since acked resetting st =>
    obtain ⟨L, hready, hsince, hacked⟩ := h
    exact ⟨ht, Or.inl ⟨L, hready.holds, hsince, hacked⟩⟩
  | crashed hcrc => exact ⟨SimFs.crash_tidy ht, consistent_crash ht hcrc h.spared⟩

theorem start_consistent (cfg : Config) (rng : Nat → Nat) : Consistent cfg (start rng) := by
  have hno : ∀ {P : Nat × Blob → Prop}, ∀ s ∈ ([] : List (Nat × Blob)), P s :=
    fun s hs => absurd hs List.not_mem_nil
  exact Or.inr ⟨[], ⟨List.Pairwise.nil, hno, fun id _ => rfl, hno, fun id => rfl⟩, hno,
    Or.inl (.nil _)⟩

/-- **Every run is consistent.** -/
theorem Reachable.consistent {cfg : Config} {w : World}
    (h : Reachable cfg (fun p => p.length < 2 ^ 32) w) : w.fs.Tidy ∧ Consistent cfg w := by
  obtain ⟨rng, hrun⟩ := h
  induction hrun with
  | refl => exact ⟨SimFs.new_tidy rng, start_consistent cfg rng⟩
  | tail _ hstep ih => exact hstep.consistent ih.1 ih.2

/-- **Prefix consistency.**  In every run in which no payload outgrows the length
field of its frame, whenever the log is not open, opening it answers and finds a
prefix of what was appended since the last reset, with all that was acknowledged. -/
theorem prefix_consistent {cfg : Config} {w : World}
    (h : Reachable cfg (fun p => p.length < 2 ^ 32) w) (hw : w.wal = none) : Recovers cfg w :=
  h.consistent.2.recovers h.consistent.1 hw

/-- What is read from a log fits the length field of a frame. -/
theorem replay_fits : ∀ (bufs : List (Nat × Bytes)) (r : Recovered), Fits r.records →
    Fits (replay bufs r).records := by
  intro bufs
  induction bufs with
  | nil => exact fun r hr => hr
  | cons b bufs ih =>
    intro r hr
    obtain ⟨ps, stop, reason, hs⟩ := Scan.exists_scan b.2
    rw [replay_cons hs]
    by_cases hc : reason ≠ .clean
    · rw [if_pos hc]
      exact hr.append hs.stop_eq.1
    · rw [if_neg hc]
      exact ih _ (hr.append hs.stop_eq.1)

theorem open_fits {cfg : Config} {fs fs' : SimFs} {st : State} {rec : Recovered} (ht : fs.Tidy)
    (h : fs.exec (Wal.open cfg) () = some (.ok (st, rec), fs', ())) : Fits rec.records := by
  have hns := Segments.of_lists (SimFs.lists_refines ht cfg.dir)
  have hrec : wpE (Disk.sem Faults.none) False True (fun _ : Disk × Unit => True) (recover cfg.dir)
      (fun rec _ => Fits rec.records) (fun _ _ => True) (fs.disk, ()) :=
    wpE_recover trivial hns (replay_fits _ _ Fits.nil) fun _ _ _ => trivial
  have hany : ∀ {α β : Type} (p : Io Unit StorageError α) {f : α → Io Unit StorageError β}
      {Q : β → SimFs × Unit → Prop} (σ : SimFs × Unit),
      (∀ a τ, wpE (SimFs.sem Faults.none) False True (fun _ => True) (f a) Q (fun _ _ => True) τ) →
      wpE (SimFs.sem Faults.none) False True (fun _ => True) (p >>= f) Q (fun _ _ => True) σ :=
    fun p f Q σ hf => wpE_bind.mpr (wpE_trivial (fun _ _ => trivial) hf (fun _ _ => trivial) σ)
  refine SimFs.exec_post (H := True) (C := fun _ => True) (R := fun _ _ => True)
    (Q := fun x _ => Fits x.2.records) (wpE_bind.mpr (wpE_mono (SimFs.wp_exec ht hrec)
      (fun _ _ => trivial) (fun rec τ _ hf => ?_) (fun _ _ _ _ => trivial))) h
  have hlast : ∀ τ, wpE (SimFs.sem Faults.none) False True (fun _ => True)
      (openActive cfg >>= fun active => pure ((⟨⟨active⟩, .default⟩ : State), rec) :
        Io Unit StorageError (State × Recovered))
      (fun x _ => Fits x.2.records) (fun _ _ => True) τ :=
    fun τ => hany _ τ fun a τ => wpE_pure.mpr ⟨trivial, hf⟩
  show wpE _ _ _ _ (if rec.stopReason ≠ .clean then _ else _) _ _ _
  by_cases hc : rec.stopReason ≠ .clean
  · rw [if_pos hc]
    cases rec.tailSegment with
    | none => exact hlast τ
    | some t => exact hany _ τ fun _ τ => hlast τ
  · rw [if_neg hc]
    exact hlast τ

/-! ### A payload too long for its length field

With `2 ^ 32` bytes the length field wraps, and no reader ever finds the payload
again, whatever the checksum does. -/

omit [Hashing] in
theorem wpE_maybeRotate_flushed {cfg : Config} {s : SimFs} {w : Writer} (h : s.Flushed) :
    wpE (SimFs.sem Faults.none) False True (fun _ => True) (maybeRotate cfg)
      (fun _ σ => σ.1.Flushed) (fun _ _ => True) (s, w) := by
  refine wpE_bind.mpr (wpE_get trivial ?_)
  by_cases hlt : w.active.writeOffset < cfg.segmentSize
  · rw [if_pos hlt]
    exact wpE_pure.mpr ⟨trivial, h⟩
  · rw [if_neg hlt]
    refine wpE_bind.mpr (wpE_bind.mpr (wpE_fits trivial fun _ => wpE_pure.mpr ⟨trivial, ?_⟩))
    refine wpE_bind.mpr (wpE_zoom _ (wpE_bind.mpr (wpE_get trivial ?_)))
    refine SimFs.wpE_run fun _ => wpE_bind.mpr (wpE_bind.mpr (SimFs.wpE_run fun _ => wpE_pure.mpr
      ⟨trivial, wpE_bind.mpr (SimFs.wpE_run fun _ => wpE_modify trivial trivial ?_)⟩))
    exact ((h.but _).syncFile.create _).syncDir _

omit [Hashing] in
theorem wpE_commitSyncNow_flushed {cfg : Config} {s : SimFs} {st : State} (h : s.Flushed)
    (frame : Bytes) :
    wpE (SimFs.sem Faults.none) False True (fun _ => True) (commitSyncNow cfg frame)
      (fun _ σ => σ.1.Flushed) (fun _ _ => True) (s, st) := by
  refine wpE_zoom _ (wpE_bind.mpr (wpE_zoom _ (wpE_bind.mpr (wpE_get trivial (wpE_bind.mpr
    (SimFs.wpE_run fun _ => wpE_modify trivial trivial ?_))))))
  refine wpE_bind.mpr (wpE_zoom _ (wpE_bind.mpr (wpE_get trivial (SimFs.wpE_run fun _ => ?_))))
  exact wpE_maybeRotate_flushed (h.append _ _).syncFile

/-- Where the power loss turns no bit, no checksum is needed. -/
theorem crcCatches_of_onlyCuts {cfg : Config} {fs : SimFs} (ht : fs.Tidy) (h : fs.OnlyCuts) :
    CrcCatches cfg fs := fun _ i hi =>
  have hcut := h _ (ht.mem _ i (Or.inr hi)) i hi
  RejectsDamage.of_prefix hcut.1 hcut.2

theorem crcCatches_of_flushed {cfg : Config} {fs : SimFs} (h : fs.Flushed) : CrcCatches cfg fs := by
  refine fun id => h.tornAt (fun b ps p rest hb _ hno => absurd ?_ hno) _
  exact hb ▸ List.prefix_append _ _

end Hashed

def demo : Config := ⟨[100], .always, 0⟩

def calm : Nat → Nat := fun _ => 0

attribute [local instance] Hashing.emptyKey

/-- The client opens the log, appends the payload and loses power. -/
theorem reachable_append_crash (ok : Bytes → Prop) {p : Bytes} (hp : ok p) :
    ∃ fs, Reachable demo ok ⟨fs, none, [p], 1, false⟩ ∧ fs.Tidy := by
  let fs := (((SimFs.new calm).create (segmentPath demo.dir 1)).2.syncDir demo.dir).2
  have hfs : fs.Flushed := (SimFs.Flushed.create ⟨SimFs.new_tidy calm, fun _ => rfl⟩ _).syncDir _
  have hrun : ∃ st, (SimFs.new calm).exec (Wal.open demo) () = some (.ok (st, .default), fs, ()) ∧
      SimFs.Exact (append demo p) fs st ∧
      ∃ st' fs', fs.exec (append demo p) st = some (.ok (), fs', st') :=
    ⟨_, rfl, ⟨(by decide : 1 + 1 < 2 ^ 64), trivial⟩, _, _, rfl⟩
  obtain ⟨st, hopen, hx, st', fs', happend⟩ := hrun
  have hfs' : fs'.Flushed :=
    SimFs.exec_post (wpE_commitSyncNow_flushed hfs (encode p))
      (show fs.exec (commitSyncNow demo (encode p)) st = some (.ok (), fs', st') from happend)
  refine ⟨fs'.crash, ⟨calm, ?_⟩, SimFs.crash_tidy hfs'.tidy⟩
  exact ((Relation.ReflTransGen.single (.opened hopen)).tail (.appended hp hx happend)).tail
    (.crashed (crcCatches_of_flushed hfs'))

/-- A payload of one byte survives. -/
theorem prefix_consistent_demo : ∃ fs, Recovers demo ⟨fs, none, [[1]], 1, false⟩ := by
  obtain ⟨fs, h, _⟩ := reachable_append_crash (fun p => p.length < 2 ^ 32)
    (show ([1] : Bytes).length < 2 ^ 32 by decide)
  exact ⟨fs, prefix_consistent h rfl⟩

/-- A payload of `2 ^ 32` bytes is acknowledged and lost. -/
theorem long_payload_lost :
    ∃ fs, Reachable demo (fun _ => True) ⟨fs, none, [List.replicate (2 ^ 32) 0], 1, false⟩ ∧
      ¬ Recovers demo ⟨fs, none, [List.replicate (2 ^ 32) 0], 1, false⟩ := by
  obtain ⟨n, hn⟩ : ∃ n, n = 2 ^ 32 := ⟨_, rfl⟩
  rw [← hn]
  obtain ⟨fs, h, ht⟩ := reachable_append_crash (fun _ => True) (p := List.replicate n 0)
    trivial
  refine ⟨fs, h, fun hrec => ?_⟩
  obtain ⟨st, rec, fs', hopen, hfound⟩ := hrec
  have hfits := open_fits ht hopen
  rcases hfound with ⟨hpre, hlen⟩ | ⟨hb, _⟩
  · have hall : rec.records = [List.replicate n 0] := hpre.eq_of_length_le hlen
    have hlt := hfits (List.replicate n 0) (by rw [hall]; exact List.mem_singleton_self _)
    rw [List.length_replicate, hn] at hlt
    exact absurd hlt (Nat.lt_irrefl _)
  · cases hb

end World

end AccretionDb.Wal
