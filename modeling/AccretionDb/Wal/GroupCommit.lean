import AccretionDb.Wal.Reopen

/-! # Group commit with many threads

Any number of calls of `append` in `GroupCommit` mode, each at its own place in
`commit_group`.  What a call does under the `coord` lock is one step of the
machine; the leader's `write_batch` is taken call by call, and in between any
other call may move.  The batch writer itself enters only through what it does to
the storage (`WritesBatches`), so the argument about leaders and followers is made
once, for a storage whose calls may fail and for one whose calls do not.  That the log
has the frames in order needs one thing more: no id may overflow (`strict`), for behind
the segment with the largest id comes segment 0.
-/

namespace AccretionDb.Wal

open CrashLogic

/-- Frames with consecutive commit sequence numbers. -/
def tickets : Nat → List Bytes → List (Nat × Bytes)
  | _, [] => []
  | n, f :: fs => (n, f) :: tickets (n + 1) fs

theorem tickets_append (n : Nat) (fs gs : List Bytes) :
    tickets n (fs ++ gs) = tickets n fs ++ tickets (n + fs.length) gs := by
  induction fs generalizing n with
  | nil => rfl
  | cons f fs ih =>
    rw [List.cons_append, tickets, ih, tickets, List.cons_append, List.length_cons,
      Nat.add_right_comm, Nat.add_assoc]

theorem map_fst_tickets (n : Nat) (fs : List Bytes) :
    (tickets n fs).map Prod.fst = List.range' n fs.length := by
  induction fs generalizing n with
  | nil => rfl
  | cons f fs ih => rw [tickets, List.map_cons, ih, List.length_cons, List.range'_succ]

theorem map_snd_tickets (n : Nat) (fs : List Bytes) : (tickets n fs).map Prod.snd = fs := by
  induction fs generalizing n with
  | nil => rfl
  | cons f fs ih => rw [tickets, List.map_cons, ih]

theorem highest_tickets (n mySeq : Nat) {fs : List Bytes} (h : fs ≠ []) :
    Coord.highest (tickets (n + 1) fs) mySeq = n + fs.length := by
  obtain ⟨gs, g, rfl⟩ := (List.eq_nil_or_concat fs).resolve_left h
  rw [List.concat_eq_append, tickets_append, Coord.highest]
  show ((tickets (n + 1) gs ++ [(n + 1 + gs.length, g)]).getLast?.map Prod.fst).getD mySeq = _
  rw [List.getLast?_concat, Option.map_some, Option.getD_some, List.length_append,
    List.length_singleton]
  omega

/-- Where a call of `commit_group` stands. -/
inductive Call
  | idle
  /-- At the head of the loop, with its sequence number. -/
  | looping (seq : Nat) (frame : Bytes)
  /-- In `batch_done.wait`, not notified. -/
  | parked (seq : Nat) (frame : Bytes)
  /-- The leader, with its batch and what is left of `write_batch`. -/
  | writing (seq : Nat) (frame : Bytes) (batch : List (Nat × Bytes))
      (rest : Prog (Eff StorageOp Writer) (Eff.Resp StorageOp.Resp) (Except StorageError Unit))
  | returned (seq : Nat) (frame : Bytes) (result : Except StorageError Unit)

namespace Call

/-- The sequence number a call claimed, and its frame. -/
def ticket : Call → Option (Nat × Bytes)
  | idle => none
  | looping seq frame | parked seq frame | writing seq frame _ _ | returned seq frame _ =>
    some (seq, frame)

def isWriting : Call → Prop
  | writing .. => True
  | _ => False

/-- What `notify_all` does to a call. -/
def wake : Call → Call
  | parked seq frame => looping seq frame
  | c => c

@[simp] theorem ticket_wake (c : Call) : c.wake.ticket = c.ticket := by
  cases c <;> rfl

end Call

/-- The log and its callers. -/
structure Machine where
  fs : SimFs
  writer : Writer
  coord : Coord
  /-- Every frame by commit sequence number; nothing reads it. -/
  claimed : List Bytes
  calls : Nat → Call

namespace Machine

/-- A log just opened, with no caller yet. -/
def start (fs : SimFs) (st : State) : Machine := ⟨fs, st.writer, st.coord, [], fun _ => .idle⟩

def setCall (m : Machine) (i : Nat) (c : Call) : Machine :=
  { m with calls := Function.update m.calls i c }

/-- A call takes the next sequence number and enqueues its frame. -/
def enqueue (m : Machine) (i : Nat) (frame : Bytes) : Machine :=
  { m with
    coord := m.coord.enqueue frame
    claimed := m.claimed ++ [frame]
    calls := Function.update m.calls i (.looping (m.coord.nextSeq + 1) frame) }

/-- The leader publishes the outcome and wakes every parked call. -/
def publish (m : Machine) (i seq : Nat) (frame : Bytes) (batch : List (Nat × Bytes))
    (io : Except StorageError Unit) : Machine :=
  { m with
    coord := m.coord.publish batch seq io
    calls := Function.update (fun j => (m.calls j).wake) i (.returned seq frame io) }

/-- One move of one call.  If it is `strict`, no leader gives a segment an id that is no
`u64`. -/
inductive Step [Hashing] (cfg : Config) (e : Faults) (strict : Prop) : Machine → Machine → Prop
  | enqueue {m : Machine} {i : Nat} (p : Bytes) (h : m.calls i = .idle) :
      Step cfg e strict m (m.enqueue i (encode p))
  | covered {m : Machine} {i seq : Nat} {frame : Bytes} (h : m.calls i = .looping seq frame)
      (hd : m.coord.durable seq) : Step cfg e strict m (m.setCall i (.returned seq frame (.ok ())))
  | park {m : Machine} {i seq : Nat} {frame : Bytes} (h : m.calls i = .looping seq frame)
      (hd : ¬ m.coord.durable seq) (hl : m.coord.leaderActive = true) :
      Step cfg e strict m (m.setCall i (.parked seq frame))
  | wakeup {m : Machine} {i seq : Nat} {frame : Bytes} (h : m.calls i = .parked seq frame) :
      Step cfg e strict m (m.setCall i (.looping seq frame))
  | lead {m : Machine} {i seq : Nat} {frame : Bytes} (h : m.calls i = .looping seq frame)
      (hd : ¬ m.coord.durable seq) (hl : m.coord.leaderActive = false) :
      Step cfg e strict m ({ m with coord := m.coord.lead seq }.setCall i
        (.writing seq frame m.coord.queue (writeBatch cfg m.coord.queue).run))
  | call {m : Machine} {i seq : Nat} {frame : Bytes} {batch : List (Nat × Bytes)}
      {o : Eff StorageOp Writer} {k : Eff.Resp StorageOp.Resp o →
        Prog (Eff StorageOp Writer) (Eff.Resp StorageOp.Resp) (Except StorageError Unit)}
      {r : Eff.Resp StorageOp.Resp o} {fs : SimFs} {w : Writer}
      (h : m.calls i = .writing seq frame batch (.op o k))
      (hs : (memSem (SimFs.sem e) strict).step o (m.fs, m.writer) r (fs, w)) :
      Step cfg e strict m ({ m with fs, writer := w }.setCall i (.writing seq frame batch (k r)))
  | publish {m : Machine} {i seq : Nat} {frame : Bytes} {batch : List (Nat × Bytes)}
      {io : Except StorageError Unit} (h : m.calls i = .writing seq frame batch (.ret io)) :
      Step cfg e strict m (m.publish i seq frame batch io)

/-! ### Leaders and followers

`rest safe d w` is what holds between two batches, when the frames `safe` have been
synced; `mid safe fs d` what holds while the batch `fs` is written. -/

section Protocol

variable {cfg : Config} {e : Faults} {strict : Prop}
variable {rest : List Bytes → Disk → Writer → Prop} {mid : List Bytes → List Bytes → Disk → Prop}

/-- What the argument needs of `write_batch`. -/
def WritesBatches (cfg : Config) (e : Faults) (strict : Prop)
    (rest : List Bytes → Disk → Writer → Prop) (mid : List Bytes → List Bytes → Disk → Prop) : Prop :=
  ∀ (safe fs : List Bytes) (batch : List (Nat × Bytes)) (d : Disk) (w : Writer),
    batch.map Prod.snd = fs → rest safe d w →
      wpE (Disk.sem e) strict True (fun σ => mid safe fs σ.1) (writeBatch cfg batch)
        (fun _ σ => rest (safe ++ fs) σ.1 σ.2) (fun _ σ => rest safe σ.1 σ.2) (d, w)

/-- What is left of a batch will keep its word. -/
def Owed (e : Faults) (strict : Prop) (rest : List Bytes → Disk → Writer → Prop)
    (mid : List Bytes → List Bytes → Disk → Prop) (safe fs : List Bytes)
    (p : Prog (Eff StorageOp Writer) (Eff.Resp StorageOp.Resp) (Except StorageError Unit))
    (σ : SimFs × Writer) : Prop :=
  wp (memSem (SimFs.sem e) strict) True (fun τ => τ.1.Tidy ∧ mid safe fs τ.1.disk) p
    (outcome (fun _ τ => rest (safe ++ fs) τ.1.disk τ.2) fun _ τ => rest safe τ.1.disk τ.2) σ

/-- The frames that are durable. -/
def safe (m : Machine) : List Bytes := m.claimed.take m.coord.syncedThrough

/-- Between two batches: nobody leads, nobody waits, and the queue is all that is
not durable. -/
structure Resting (rest : List Bytes → Disk → Writer → Prop) (m : Machine) : Prop where
  idle : m.coord.leaderActive = false
  queue : m.coord.queue = tickets (m.coord.syncedThrough + 1)
    (m.claimed.drop m.coord.syncedThrough)
  none : ∀ i, ¬ (m.calls i).isWriting
  rest : rest m.safe m.fs.disk m.writer

/-- A batch under way: one call leads it, and the queue is what came since. -/
structure Leading (e : Faults) (strict : Prop) (rest : List Bytes → Disk → Writer → Prop)
    (mid : List Bytes → List Bytes → Disk → Prop) (m : Machine) (i seq : Nat) (frame : Bytes)
    (fs waiting : List Bytes)
    (p : Prog (Eff StorageOp Writer) (Eff.Resp StorageOp.Resp) (Except StorageError Unit)) :
    Prop where
  active : m.coord.leaderActive = true
  leader : m.calls i = .writing seq frame (tickets (m.coord.syncedThrough + 1) fs) p
  only : ∀ j, j ≠ i → ¬ (m.calls j).isWriting
  claimed : m.claimed.drop m.coord.syncedThrough = fs ++ waiting
  mine : m.coord.syncedThrough < seq ∧ seq ≤ m.coord.syncedThrough + fs.length
  queue : m.coord.queue = tickets (m.coord.syncedThrough + 1 + fs.length) waiting
  owed : Owed e strict rest mid m.safe fs p (m.fs, m.writer)

/-- What holds of every call. -/
structure Calls (claimed : List Bytes) (syncedThrough : Nat) (leaderActive : Bool)
    (calls : Nat → Call) : Prop where
  ticket : ∀ i seq frame, (calls i).ticket = some (seq, frame) →
    0 < seq ∧ claimed[seq - 1]? = some frame
  distinct : ∀ i j seq f g, (calls i).ticket = some (seq, f) →
    (calls j).ticket = some (seq, g) → i = j
  parked : ∀ i seq frame, calls i = .parked seq frame → leaderActive = true
  acked : ∀ i seq frame, calls i = .returned seq frame (.ok ()) → seq ≤ syncedThrough

namespace Calls

variable {claimed : List Bytes} {syncedThrough : Nat} {leaderActive : Bool} {calls : Nat → Call}

theorem le_length (h : Calls claimed syncedThrough leaderActive calls) {i seq : Nat} {frame : Bytes}
    (hi : (calls i).ticket = some (seq, frame)) : 0 < seq ∧ seq ≤ claimed.length := by
  obtain ⟨hpos, hc⟩ := h.ticket i seq frame hi
  obtain ⟨hlt, _⟩ := List.getElem?_eq_some_iff.mp hc
  omega

/-- A call moves on under its sequence number. -/
theorem set (h : Calls claimed syncedThrough leaderActive calls) {i : Nat} {c : Call}
    (ht : c.ticket = (calls i).ticket)
    (hp : ∀ seq frame, c = .parked seq frame → leaderActive = true)
    (ha : ∀ seq frame, c = .returned seq frame (.ok ()) → seq ≤ syncedThrough) :
    Calls claimed syncedThrough leaderActive (Function.update calls i c) := by
  have htick : ∀ j, (Function.update calls i c j).ticket = (calls j).ticket := by
    intro j
    by_cases hj : j = i
    · subst hj
      rw [Function.update_self, ht]
    · rw [Function.update_of_ne hj]
  refine ⟨fun j seq frame hj => ?_, fun j j' seq f g hj hj' => ?_, fun j seq frame hj => ?_,
    fun j seq frame hj => ?_⟩
  · rw [htick] at hj
    exact h.ticket j seq frame hj
  · rw [htick] at hj hj'
    exact h.distinct j j' seq f g hj hj'
  · by_cases hji : j = i
    · subst hji
      rw [Function.update_self] at hj
      exact hp seq frame hj
    · rw [Function.update_of_ne hji] at hj
      exact h.parked j seq frame hj
  · by_cases hji : j = i
    · subst hji
      rw [Function.update_self] at hj
      exact ha seq frame hj
    · rw [Function.update_of_ne hji] at hj
      exact h.acked j seq frame hj

theorem activate (h : Calls claimed syncedThrough leaderActive calls) :
    Calls claimed syncedThrough true calls :=
  ⟨h.ticket, h.distinct, fun _ _ _ _ => rfl, h.acked⟩

/-- A new call claims the next number. -/
theorem claim (h : Calls claimed syncedThrough leaderActive calls) {i : Nat} (frame : Bytes)
    (hi : calls i = .idle) :
    Calls (claimed ++ [frame]) syncedThrough leaderActive
      (Function.update calls i (.looping (claimed.length + 1) frame)) := by
  have hnew : (Function.update calls i (.looping (claimed.length + 1) frame) i).ticket =
      some (claimed.length + 1, frame) := by
    rw [Function.update_self]
    rfl
  -- no earlier call has the new number
  have hfresh : ∀ j f, (calls j).ticket ≠ some (claimed.length + 1, f) := by
    intro j f hj
    have := (h.le_length hj).2
    omega
  refine ⟨fun j seq f hj => ?_, fun j j' seq f g hj hj' => ?_, fun j seq f hj => ?_,
    fun j seq f hj => ?_⟩
  · by_cases hji : j = i
    · subst hji
      rw [hnew] at hj
      obtain ⟨rfl, rfl⟩ := Prod.mk.inj (Option.some.inj hj)
      exact ⟨Nat.succ_pos _, List.getElem?_concat_length ..⟩
    · rw [Function.update_of_ne hji] at hj
      obtain ⟨hpos, hc⟩ := h.ticket j seq f hj
      exact ⟨hpos, List.getElem?_append_left (List.getElem?_eq_some_iff.mp hc).1 |>.trans hc⟩
  · by_cases hji : j = i
    · by_cases hji' : j' = i
      · rw [hji, hji']
      · subst hji
        rw [hnew] at hj
        rw [Function.update_of_ne hji'] at hj'
        obtain ⟨rfl, _⟩ := Prod.mk.inj (Option.some.inj hj)
        exact absurd hj' (hfresh j' g)
    · by_cases hji' : j' = i
      · subst hji'
        rw [hnew] at hj'
        rw [Function.update_of_ne hji] at hj
        obtain ⟨rfl, _⟩ := Prod.mk.inj (Option.some.inj hj')
        exact absurd hj (hfresh j f)
      · rw [Function.update_of_ne hji] at hj
        rw [Function.update_of_ne hji'] at hj'
        exact h.distinct j j' seq f g hj hj'
  · by_cases hji : j = i
    · subst hji
      rw [Function.update_self] at hj
      cases hj
    · rw [Function.update_of_ne hji] at hj
      exact h.parked j seq f hj
  · by_cases hji : j = i
    · subst hji
      rw [Function.update_self] at hj
      cases hj
    · rw [Function.update_of_ne hji] at hj
      exact h.acked j seq f hj

/-- Every parked call is woken. -/
theorem wake (h : Calls claimed syncedThrough leaderActive calls) {syncedThrough' : Nat}
    (hs : syncedThrough ≤ syncedThrough') :
    Calls claimed syncedThrough' false fun j => (calls j).wake := by
  refine ⟨fun j seq frame hj => ?_, fun j j' seq f g hj hj' => ?_, fun j seq frame hj => ?_,
    fun j seq frame hj => ?_⟩
  · rw [Call.ticket_wake] at hj
    exact h.ticket j seq frame hj
  · rw [Call.ticket_wake] at hj hj'
    exact h.distinct j j' seq f g hj hj'
  · cases hc : calls j <;> rw [hc] at hj <;> cases hj
  · have : calls j = .returned seq frame (.ok ()) := by
      cases hc : calls j <;> rw [hc] at hj <;> cases hj
      rfl
    exact (h.acked j seq frame this).trans hs

end Calls

structure Inv (e : Faults) (strict : Prop) (rest : List Bytes → Disk → Writer → Prop)
    (mid : List Bytes → List Bytes → Disk → Prop) (m : Machine) : Prop where
  tidy : m.fs.Tidy
  next : m.coord.nextSeq = m.claimed.length
  synced : m.coord.syncedThrough ≤ m.claimed.length
  calls : Calls m.claimed m.coord.syncedThrough m.coord.leaderActive m.calls
  phase : Resting rest m ∨ ∃ i seq frame fs waiting p, Leading e strict rest mid m i seq frame fs waiting p

namespace Inv

variable {m : Machine}

/-- What is durable stays durable while a batch is under way. -/
theorem storage (h : Inv e strict rest mid m) {P : Disk → Prop}
    (hrest : ∀ d w, rest m.safe d w → P d) (hmid : ∀ fs d, mid m.safe fs d → P d) :
    P m.fs.disk := by
  rcases h.phase with hr | ⟨i, seq, frame, fs, waiting, p, hl⟩
  · exact hrest _ _ hr.rest
  · exact hmid fs _ (wp_crash hl.owed).2

theorem drop_claim (h : Inv e strict rest mid m) (frame : Bytes) :
    (m.claimed ++ [frame]).drop m.coord.syncedThrough =
      m.claimed.drop m.coord.syncedThrough ++ [frame] :=
  List.drop_append_of_le_length h.synced

theorem take_claim (h : Inv e strict rest mid m) (frame : Bytes) :
    (m.claimed ++ [frame]).take m.coord.syncedThrough = m.safe :=
  List.take_append_of_le_length h.synced

theorem enqueue (h : Inv e strict rest mid m) {i : Nat} (frame : Bytes) (hi : m.calls i = .idle) :
    Inv e strict rest mid (m.enqueue i frame) := by
  have hlen : (m.claimed ++ [frame]).length = m.claimed.length + 1 := by
    rw [List.length_append, List.length_singleton]
  have hnew : ∀ j, (Function.update m.calls i (.looping (m.coord.nextSeq + 1) frame) j).isWriting ↔
      (m.calls j).isWriting := by
    intro j
    by_cases hj : j = i
    · subst hj
      rw [Function.update_self, hi]
      rfl
    · rw [Function.update_of_ne hj]
  refine ⟨h.tidy, ?_, ?_, ?_, ?_⟩
  · show m.coord.nextSeq + 1 = _
    rw [h.next]
    exact hlen.symm
  · exact h.synced.trans (hlen ▸ Nat.le_succ _)
  · have := h.calls.claim frame hi
    rw [← h.next] at this
    exact this
  · rcases h.phase with hr | ⟨l, seq, f, fs, waiting, p, hl⟩
    · refine Or.inl ⟨hr.idle, ?_, fun j => (hnew j).not.mpr (hr.none j), ?_⟩
      · show m.coord.queue ++ [(m.coord.nextSeq + 1, frame)] =
          tickets (m.coord.syncedThrough + 1) ((m.claimed ++ [frame]).drop m.coord.syncedThrough)
        have hseq : m.coord.syncedThrough + 1 + (m.claimed.drop m.coord.syncedThrough).length =
            m.coord.nextSeq + 1 := by
          have := h.synced
          rw [List.length_drop, h.next]
          omega
        rw [h.drop_claim, tickets_append, ← hr.queue, hseq]
        rfl
      · show rest ((m.claimed ++ [frame]).take m.coord.syncedThrough) _ _
        rw [h.take_claim]
        exact hr.rest
    · have hli : l ≠ i := by
        intro he
        have := hl.leader
        rw [he, hi] at this
        cases this
      refine Or.inr ⟨l, seq, f, fs, waiting ++ [frame], p, hl.active, ?_,
        fun j hj => (hnew j).not.mpr (hl.only j hj), ?_, hl.mine, ?_, ?_⟩
      · exact (Function.update_of_ne hli ..).trans hl.leader
      · show (m.claimed ++ [frame]).drop m.coord.syncedThrough = _
        rw [h.drop_claim, hl.claimed, List.append_assoc]
      · show m.coord.queue ++ [(m.coord.nextSeq + 1, frame)] = _
        have hseq : m.coord.syncedThrough + 1 + fs.length + waiting.length = m.coord.nextSeq + 1 := by
          have hlen := congrArg List.length hl.claimed
          have := h.synced
          rw [List.length_drop, List.length_append] at hlen
          rw [h.next]
          omega
        show _ = tickets (m.coord.syncedThrough + 1 + fs.length) (waiting ++ [frame])
        rw [tickets_append, ← hl.queue, hseq]
        rfl
      · show Owed e strict rest mid ((m.claimed ++ [frame]).take m.coord.syncedThrough) fs p _
        rw [h.take_claim]
        exact hl.owed

/-- A call that leads no batch moves on under its sequence number. -/
theorem setCall (h : Inv e strict rest mid m) {i : Nat} {c : Call} (ht : c.ticket = (m.calls i).ticket)
    (hi : ¬ (m.calls i).isWriting) (hc : ¬ c.isWriting)
    (hp : ∀ seq frame, c = .parked seq frame → m.coord.leaderActive = true)
    (ha : ∀ seq frame, c = .returned seq frame (.ok ()) → seq ≤ m.coord.syncedThrough) :
    Inv e strict rest mid (m.setCall i c) := by
  have hnew : ∀ j, (Function.update m.calls i c j).isWriting ↔ (m.calls j).isWriting := by
    intro j
    by_cases hj : j = i
    · subst hj
      rw [Function.update_self]
      exact iff_of_false hc hi
    · rw [Function.update_of_ne hj]
  refine ⟨h.tidy, h.next, h.synced, h.calls.set ht hp ha, ?_⟩
  rcases h.phase with hr | ⟨l, seq, f, fs, waiting, p, hl⟩
  · exact Or.inl ⟨hr.idle, hr.queue, fun j => (hnew j).not.mpr (hr.none j), hr.rest⟩
  · have hli : l ≠ i := by
      rintro rfl
      exact hi (by rw [hl.leader]; trivial)
    exact Or.inr ⟨l, seq, f, fs, waiting, p, hl.active,
      (Function.update_of_ne hli ..).trans hl.leader, fun j hj => (hnew j).not.mpr (hl.only j hj),
      hl.claimed, hl.mine, hl.queue, hl.owed⟩

/-- A call takes the queue and starts to write. -/
theorem lead (h : Inv e strict rest mid m) (hw : WritesBatches cfg e strict rest mid) {i seq : Nat} {frame : Bytes}
    (hi : m.calls i = .looping seq frame) (hd : ¬ m.coord.durable seq)
    (hl : m.coord.leaderActive = false) :
    Inv e strict rest mid ({ m with coord := m.coord.lead seq }.setCall i
      (.writing seq frame m.coord.queue (writeBatch cfg m.coord.queue).run)) := by
  have hlead : m.coord.lead seq = { m.coord with leaderActive := true, queue := [] } := by
    rw [Coord.lead, if_neg (by simp [hd, hl])]
  have hlt : m.coord.syncedThrough < seq := Nat.lt_of_not_le hd
  rcases h.phase with hr | ⟨l, seq', f, fs, waiting, p, hlead'⟩
  swap
  · rw [hlead'.active] at hl
    cases hl
  have hle : seq ≤ m.claimed.length := (h.calls.le_length (by rw [hi]; rfl)).2
  let fs := m.claimed.drop m.coord.syncedThrough
  have hlen : fs.length = m.claimed.length - m.coord.syncedThrough := List.length_drop
  rw [hlead]
  refine ⟨h.tidy, h.next, h.synced, ?_, Or.inr ⟨i, seq, frame, fs, [],
    (writeBatch cfg m.coord.queue).run, rfl, ?_, fun j hj => ?_, (List.append_nil _).symm,
    ⟨hlt, ?_⟩, rfl, ?_⟩⟩
  · exact h.calls.activate.set (by rw [hi]; rfl) (fun _ _ he => by cases he)
      fun _ _ he => by cases he
  · have hq : tickets (m.coord.syncedThrough + 1) fs = m.coord.queue := hr.queue.symm
    show Function.update m.calls i _ i =
      .writing seq frame (tickets (m.coord.syncedThrough + 1) fs) _
    rw [Function.update_self, hq]
  · show ¬ (Function.update m.calls i _ j).isWriting
    rw [Function.update_of_ne hj]
    exact hr.none j
  · show seq ≤ m.coord.syncedThrough + fs.length
    omega
  · have hbatch : m.coord.queue.map Prod.snd = fs := by
      rw [hr.queue, map_snd_tickets]
    exact wpE_iff.mp (SimFs.wp_exec h.tidy
      (hw m.safe fs m.coord.queue m.fs.disk m.writer hbatch hr.rest))

/-- The leader makes one storage call. -/
theorem call (h : Inv e strict rest mid m) {i seq : Nat} {frame : Bytes} {batch : List (Nat × Bytes)}
    {o : Eff StorageOp Writer} {k : Eff.Resp StorageOp.Resp o →
      Prog (Eff StorageOp Writer) (Eff.Resp StorageOp.Resp) (Except StorageError Unit)}
    {r : Eff.Resp StorageOp.Resp o} {fs' : SimFs} {w : Writer}
    (hi : m.calls i = .writing seq frame batch (.op o k))
    (hs : (memSem (SimFs.sem e) strict).step o (m.fs, m.writer) r (fs', w)) :
    Inv e strict rest mid ({ m with fs := fs', writer := w }.setCall i (.writing seq frame batch (k r))) := by
  rcases h.phase with hr | ⟨l, seq', f, fs, waiting, p, hl⟩
  · exact absurd (by rw [hi]; trivial) (hr.none i)
  have hli : l = i := by
    by_contra hne
    exact hl.only i (fun e => hne e.symm) (by rw [hi]; trivial)
  subst hli
  have hsame := hl.leader
  rw [hi] at hsame
  cases hsame
  have howed : Owed e strict rest mid m.safe fs (k r) (fs', w) := hl.owed.2.2 r (fs', w) hs
  refine ⟨(wp_crash howed).1, h.next, h.synced, h.calls.set (by rw [hi]; rfl)
    (fun _ _ he => by cases he) (fun _ _ he => by cases he), Or.inr ⟨l, seq, frame, fs, waiting, k r,
    hl.active, Function.update_self .., fun j hj => ?_, hl.claimed, hl.mine, hl.queue, howed⟩⟩
  show ¬ (Function.update m.calls l _ j).isWriting
  rw [Function.update_of_ne hj]
  exact hl.only j hj

/-- The leader publishes its batch. -/
theorem publish (h : Inv e strict rest mid m) {i seq : Nat} {frame : Bytes} {batch : List (Nat × Bytes)}
    {io : Except StorageError Unit} (hi : m.calls i = .writing seq frame batch (.ret io)) :
    Inv e strict rest mid (m.publish i seq frame batch io) := by
  rcases h.phase with hr | ⟨l, seq', f, fs, waiting, p, hl⟩
  · exact absurd (by rw [hi]; trivial) (hr.none i)
  have hli : l = i := by
    by_contra hne
    exact hl.only i (fun e => hne e.symm) (by rw [hi]; trivial)
  subst hli
  have hsame := hl.leader
  rw [hi] at hsame
  cases hsame
  obtain ⟨hlt, hle⟩ := hl.mine
  have hne : fs ≠ [] := by
    rintro rfl
    simp only [List.length_nil] at hle
    omega
  have hlen : m.claimed.length - m.coord.syncedThrough = fs.length + waiting.length := by
    rw [← List.length_drop, hl.claimed, List.length_append]
  have hcl := h.synced
  have hnone : ∀ j, ¬ (Function.update (fun j => (m.calls j).wake) l (.returned seq frame io) j
      ).isWriting := by
    intro j
    by_cases hj : j = l
    · subst hj
      rw [Function.update_self]
      exact fun h => h
    · rw [Function.update_of_ne hj]
      have := hl.only j hj
      cases hc : m.calls j <;> rw [hc] at this <;> exact this
  have hpost := hl.owed.2
  cases io with
  | ok u =>
    let k := m.coord.syncedThrough + fs.length
    have hcoord : m.coord.publish (tickets (m.coord.syncedThrough + 1) fs) seq
        (.ok u : Except StorageError Unit) =
        { m.coord with leaderActive := false, syncedThrough := k } := by
      rw [Coord.publish, highest_tickets _ _ hne, Nat.max_eq_right (Nat.le_add_right ..)]
    have hdrop : m.claimed.drop k = waiting := by
      show m.claimed.drop (m.coord.syncedThrough + fs.length) = _
      rw [← List.drop_drop, hl.claimed, List.drop_left]
    have htake : m.claimed.take k = m.safe ++ fs := by
      show m.claimed.take (m.coord.syncedThrough + fs.length) = _
      rw [List.take_add, hl.claimed, List.take_left]
      rfl
    have hcalls : Calls m.claimed k false
        (Function.update (fun j => (m.calls j).wake) l (.returned seq frame (.ok u))) := by
      refine (h.calls.wake (Nat.le_add_right ..)).set ?_ (fun _ _ he => by cases he) ?_
      · rw [Call.ticket_wake, hi]
        rfl
      · intro seq' frame' he
        cases he
        exact hle
    unfold Machine.publish
    rw [hcoord]
    refine ⟨h.tidy, h.next, ?_, hcalls, Or.inl ⟨rfl, ?_, hnone, ?_⟩⟩
    · show k ≤ m.claimed.length
      omega
    · show m.coord.queue = tickets (k + 1) (m.claimed.drop k)
      rw [hdrop, hl.queue]
      congr 1
      omega
    · show rest (m.claimed.take k) _ _
      rw [htake]
      exact hpost
  | error err =>
    have hcalls : Calls m.claimed m.coord.syncedThrough false
        (Function.update (fun j => (m.calls j).wake) l (.returned seq frame (.error err))) := by
      refine (h.calls.wake (Nat.le_refl _)).set ?_ (fun _ _ he => by cases he) fun _ _ he => by cases he
      rw [Call.ticket_wake, hi]
      rfl
    refine ⟨h.tidy, h.next, h.synced, hcalls, Or.inl ⟨rfl, ?_, hnone, hpost⟩⟩
    show tickets (m.coord.syncedThrough + 1) fs ++ m.coord.queue =
      tickets (m.coord.syncedThrough + 1) (m.claimed.drop m.coord.syncedThrough)
    rw [hl.claimed, tickets_append, hl.queue]

/-- **One move preserves the invariant.** -/
theorem step [Hashing] (h : Inv e strict rest mid m) (hw : WritesBatches cfg e strict rest mid) {m' : Machine}
    (hs : Step cfg e strict m m') : Inv e strict rest mid m' := by
  cases hs with
  | enqueue p hi => exact h.enqueue (encode p) hi
  | covered hi hd =>
    refine h.setCall (by rw [hi]; rfl) (by rw [hi]; exact fun h => h) (fun h => h)
      (fun _ _ he => by cases he) fun _ _ he => ?_
    cases he
    exact hd
  | park hi hd hl =>
    exact h.setCall (by rw [hi]; rfl) (by rw [hi]; exact fun h => h) (fun h => h)
      (fun _ _ _ => hl) fun _ _ he => by cases he
  | wakeup hi =>
    exact h.setCall (by rw [hi]; rfl) (by rw [hi]; exact fun h => h) (fun h => h)
      (fun _ _ he => by cases he) fun _ _ he => by cases he
  | lead hi hd hl => exact h.lead hw hi hd hl
  | call hi hs => exact h.call hi hs
  | publish hi => exact h.publish hi

/-- **Every run keeps the invariant.** -/
theorem run [Hashing] (hw : WritesBatches cfg e strict rest mid) {m₀ : Machine} (h : Inv e strict rest mid m₀)
    (hrun : Relation.ReflTransGen (Step cfg e strict) m₀ m) : Inv e strict rest mid m := by
  induction hrun with
  | refl => exact h
  | tail _ hs ih => exact ih.step hw hs

end Inv

theorem start_inv {fs : SimFs} {st : State} (ht : fs.Tidy) (hrest : rest [] fs.disk st.writer)
    (hco : st.coord = .default) : Inv e strict rest mid (start fs st) := by
  obtain ⟨w, co⟩ := st
  change co = _ at hco
  subst hco
  refine ⟨ht, rfl, Nat.le_refl _, ⟨?_, ?_, ?_, ?_⟩, Or.inl ⟨rfl, rfl, fun i h => h, hrest⟩⟩
  · exact fun i seq frame h => by cases h
  · exact fun i j seq f g h => by cases h
  · exact fun i seq frame h => by cases h
  · exact fun i seq frame h => by cases h

end Protocol

end Machine

/-! ### A storage whose calls may fail

Every frame of a batch that succeeded is in the synced bytes of a segment, and stays
there. -/

/-- The frame stands in the synced bytes of a segment; if `linked`, of one whose
name is durable. -/
def InSynced (linked : Prop) (dir : Dir) (d : Disk) (frame : Bytes) : Prop :=
  ∃ id b, (d (segmentPath dir id)).live = some b ∧ frame <:+: b.synced ∧
    (linked → (d (segmentPath dir id)).linked)

section Faulty

variable {linked strict : Prop} {dir : Dir} {e : Faults} {d d' : Disk} {a a' : Nat} {fs : List Bytes}

theorem linked_edit (f : Blob → Blob) (s : Slot) : (s.edit f).linked ↔ s.linked := by
  cases s <;> exact Iff.rfl

theorem InSynced.put {frame : Bytes} (h : InSynced linked dir d frame) {f : Blob → Blob}
    (hf : ∀ b, b.synced <+: (f b).synced) : InSynced linked dir (put dir d a f) frame := by
  obtain ⟨id, b, hl, hb, hk⟩ := h
  by_cases hid : id = a
  · subst hid
    refine ⟨id, f b, ?_, hb.trans (hf b).isInfix, fun hlk => ?_⟩
    · rw [put_at, Slot.live_edit, hl]
      rfl
    · rw [put_at]
      exact (linked_edit f _).mpr (hk hlk)
  · have hsame : Wal.put dir d a f (segmentPath dir id) = d (segmentPath dir id) :=
      put_of_ne (n := .plain id) (SegName.plain_ne hid) ..
    exact ⟨id, b, by rw [hsame, hl], hb, fun hlk => by rw [hsame]; exact hk hlk⟩

theorem InSynced.start {frame : Bytes} (h : InSynced linked dir d frame)
    (ha : (d (segmentPath dir a)).live = none) : InSynced linked dir (Wal.start dir d a) frame := by
  obtain ⟨id, b, hl, hb, hk⟩ := h
  have hid : id ≠ a := by
    rintro rfl
    rw [hl] at ha
    cases ha
  have hsame : Wal.start dir d a (segmentPath dir id) = d (segmentPath dir id) :=
    start_of_ne (n := .plain id) (SegName.plain_ne hid) ..
  exact ⟨id, b, by rw [hsame, hl], hb, fun hlk => by rw [hsame]; exact hk hlk⟩

theorem InSynced.commit {frame : Bytes} (h : InSynced linked dir d frame) :
    InSynced linked dir (d.commit dir) frame := by
  obtain ⟨id, b, hl, hb, _⟩ := h
  refine ⟨id, b, by rw [commit_segment, Slot.live_commit, hl], hb, fun _ => ?_⟩
  rw [commit_segment]
  exact linked_commit _ (by rw [Slot.live_commit, hl]; rfl)

theorem sealed_live (h : (d (segmentPath dir (succId a))).live = none) :
    (sealed dir d a fs (segmentPath dir (succId a))).live = none := by
  have hsame : sealed dir d a fs (segmentPath dir (succId a)) = d (segmentPath dir (succId a)) :=
    put_of_ne (n := .plain (succId a)) (SegName.plain_ne (succId_ne a)) ..
  rw [hsame, h]

theorem prefix_append_sync (b : Blob) (x : Bytes) : b.synced <+: (b.append x).sync.synced := by
  show b.synced <+: b.synced ++ (b.tail ++ x)
  exact List.prefix_append _ _

/-- What is synced stays synced through a batch. -/
theorem InSynced.stage {frame : Bytes} (h : InSynced linked dir d frame)
    (hs : Stage strict dir e d a fs a' d') : InSynced linked dir d' frame := by
  have hsealed : InSynced linked dir (sealed dir d a fs) frame :=
    h.put fun b => prefix_append_sync b _
  cases hs with
  | wrote _ => exact h.put fun b => List.prefix_refl _
  | broke _ _ _ => exact h.put fun b => List.prefix_refl _
  | synced => exact hsealed
  | started hfree _ => exact hsealed.start (sealed_live hfree)
  | listed hfree _ => exact (hsealed.start (sealed_live hfree)).commit
  | rolled hfree _ => exact (hsealed.start (sealed_live hfree)).commit

/-- The segment the writer aims at is there, under a durable name if `linked`. -/
def Aimed (linked : Prop) (dir : Dir) (a : Nat) (d : Disk) : Prop :=
  (d (segmentPath dir a)).live.isSome ∧ (linked → (d (segmentPath dir a)).linked)

theorem Aimed.put (h : Aimed linked dir a d) (f : Blob → Blob) : Aimed linked dir a (put dir d a f) := by
  rw [Aimed, put_at]
  exact ⟨by rw [Slot.live_edit, Option.isSome_map]; exact h.1, fun hl => (linked_edit f _).mpr (h.2 hl)⟩

theorem Aimed.commit (h : (d (segmentPath dir a)).live.isSome) : Aimed linked dir a (d.commit dir) := by
  have hsome : (d (segmentPath dir a)).commit.live.isSome := by rwa [Slot.live_commit]
  rw [Aimed, commit_segment]
  exact ⟨hsome, fun _ => linked_commit _ hsome⟩

theorem Aimed.stage (h : Aimed linked dir a d) (hs : Stage strict dir e d a fs a' d') :
    Aimed linked dir a' d' := by
  have hsealed : Aimed linked dir a (sealed dir d a fs) := h.put _
  have hsame : start dir (sealed dir d a fs) (succId a) (segmentPath dir a) =
      sealed dir d a fs (segmentPath dir a) :=
    start_of_ne (n := .plain a) (SegName.plain_ne (succId_ne a).symm) ..
  cases hs with
  | wrote _ => exact h.put _
  | broke _ _ _ => exact h.put _
  | synced => exact hsealed
  | started hfree _ =>
    rw [Aimed, hsame]
    exact hsealed
  | listed hfree _ => exact Aimed.commit (by rw [hsame]; exact hsealed.1)
  | rolled hfree _ => exact Aimed.commit (by rw [start_at, Slot.live_link]; rfl)

/-- After a batch its frames are synced. -/
theorem Batched.inSynced (hb : Batched strict dir d a fs a' d') (h : Aimed linked dir a d) {frame : Bytes}
    (hf : frame ∈ fs) : InSynced linked dir d' frame := by
  obtain ⟨hsome, hk⟩ := h
  obtain ⟨b, hl⟩ := Option.isSome_iff_exists.mp hsome
  have hsealed : InSynced linked dir (sealed dir d a fs) frame := by
    refine ⟨a, (b.append fs.flatten).sync, ?_, ?_, fun hlk => ?_⟩
    · rw [sealed, put_at, Slot.live_edit, hl]
      rfl
    · refine (List.infix_of_mem_flatten hf).trans ?_
      show fs.flatten <:+: b.synced ++ (b.tail ++ fs.flatten)
      rw [← List.append_assoc]
      exact (List.suffix_append _ _).isInfix
    · rw [sealed, put_at]
      exact (linked_edit _ _).mpr (hk hlk)
  cases hb with
  | stayed => exact hsealed
  | rolled hfree _ => exact (hsealed.start (sealed_live hfree)).commit

theorem Batched.stage (hb : Batched strict dir d a fs a' d') (e : Faults) : Stage strict dir e d a fs a' d' := by
  cases hb with
  | stayed => exact .synced
  | rolled hfree hword => exact .rolled hfree hword

/-- Between two batches on such a storage. -/
def FaultyRest (linked : Prop) (dir : Dir) (safe : List Bytes) (d : Disk) (w : Writer) : Prop :=
  ∃ a, Writes dir a w ∧ Aimed linked dir a d ∧ ∀ f ∈ safe, InSynced linked dir d f

theorem faulty_writes (cfg : Config) (e : Faults) (linked strict : Prop) :
    Machine.WritesBatches cfg e strict (FaultyRest linked cfg.dir)
      fun safe _ d => ∀ f ∈ safe, InSynced linked cfg.dir d f := by
  rintro safe fs batch d w hb ⟨a, hw, haim, hsafe⟩
  refine wpE_writeBatch_stage hb haim.1 hw (fun a' d' w' hs _ f hf => (hsafe f hf).stage hs)
    (fun _ err d' w' hs hw' => ⟨a, hw', haim.stage hs, fun f hf => (hsafe f hf).stage hs⟩)
    fun a' d' w' hbd hw' => ⟨a', hw', haim.stage (hbd.stage e), fun f hf => ?_⟩
  rcases List.mem_append.mp hf with hf | hf
  · exact (hsafe f hf).stage (hbd.stage e)
  · exact hbd.inSynced haim hf

end Faulty

/-! ### A storage whose calls do not fail

The log is the frames in the order of their sequence numbers. -/

/-- The segments after these frames were appended one by one, with a new segment
started here and there. -/
inductive Logged (bufs₀ : List (SegName × Bytes)) : List Bytes → List (SegName × Bytes) → Prop
  | nil : Logged bufs₀ [] bufs₀
  | append {fs : List Bytes} {f : Bytes} {pre : List (SegName × Bytes)} {a : Nat} {c : Bytes}
      (h : Logged bufs₀ fs (pre ++ [(.plain a, c)])) : Logged bufs₀ (fs ++ [f]) (pre ++ [(.plain a, c ++ f)])
  | roll {fs : List Bytes} {pre : List (SegName × Bytes)} {a : Nat} {c : Bytes}
      (h : Logged bufs₀ fs (pre ++ [(.plain a, c)])) :
      Logged bufs₀ fs (pre ++ [(.plain a, c)] ++ [(.plain (a + 1), [])])

theorem Logged.appendAll {bufs₀ pre : List (SegName × Bytes)} {fs : List Bytes} {a : Nat} {c : Bytes}
    (h : Logged bufs₀ fs (pre ++ [(.plain a, c)])) (gs : List Bytes) :
    Logged bufs₀ (fs ++ gs) (pre ++ [(.plain a, c ++ gs.flatten)]) := by
  induction gs generalizing fs c with
  | nil => rwa [List.append_nil, List.flatten_nil, List.append_nil]
  | cons g gs ih =>
    have := ih (h.append (f := g))
    rwa [List.append_assoc, List.singleton_append, List.append_assoc, ← List.flatten_cons] at this

/-- The bytes of the log are the frames, one behind the other. -/
theorem Logged.bytes_eq {bufs₀ bufs : List (SegName × Bytes)} {fs : List Bytes}
    (h : Logged bufs₀ fs bufs) :
    bufs.flatMap Prod.snd = bufs₀.flatMap Prod.snd ++ fs.flatten := by
  induction h with
  | nil => exact (List.append_nil _).symm
  | append _ ih =>
    simp only [List.flatMap_append, List.flatMap_singleton, List.flatten_append,
      List.flatten_singleton] at ih ⊢
    rw [← List.append_assoc, ih, List.append_assoc]
  | roll _ ih =>
    rw [List.flatMap_append, ih, List.flatMap_singleton, List.append_nil]

/-- Between two batches on such a storage. -/
def SoundRest (bufs₀ : List (SegName × Bytes)) (dir : Dir) (safe : List Bytes) (d : Disk) (w : Writer) :
    Prop :=
  ∃ pre a c, Writes dir a w ∧ Buffers dir d (pre ++ [(.plain a, c)]) ∧ Logged bufs₀ safe (pre ++ [(.plain a, c)])

/-- While a batch is written: a part of it is in the log. -/
def SoundMid (bufs₀ : List (SegName × Bytes)) (dir : Dir) (safe fs : List Bytes) (d : Disk) : Prop :=
  ∃ done bufs, done <+: fs ∧ Buffers dir d bufs ∧ Logged bufs₀ (safe ++ done) bufs

theorem sound_writes (cfg : Config) {e : Faults} {strict : Prop} (hstrict : strict) (he : ∀ o, ¬ e.fail o)
    (hs : ∀ p data n, ¬ e.short p data n) (bufs₀ : List (SegName × Bytes)) :
    Machine.WritesBatches cfg e strict (SoundRest bufs₀ cfg.dir) (SoundMid bufs₀ cfg.dir) := by
  rintro safe fs batch d w hb ⟨pre, a, c, hw, hbuf, hlog⟩
  have hno : ¬ Trouble strict cfg.dir e d a := by
    rintro (⟨o, ho⟩ | ⟨p, data, n, h⟩ | ⟨hword, hsome⟩)
    · exact he o ho
    · exact hs p data n h
    · rw [succId_eq (hword hstrict), hbuf.next_free (hword hstrict)] at hsome
      cases hsome
  refine wpE_writeBatch_stage hb hbuf.last_live hw (fun a' d' w' hst _ => ?_)
    (fun ht => absurd ht hno) fun a' d' w' hbd hw' => ?_
  · rcases hst.buffers hstrict hs hbuf with ⟨done, hdone, hbuf'⟩ | hbuf'
    · exact ⟨done, _, hdone, hbuf', hlog.appendAll done⟩
    · exact ⟨fs, _, List.prefix_refl fs, hbuf', (hlog.appendAll fs).roll⟩
  · rcases hbd.buffers hstrict hbuf with ⟨rfl, hbuf'⟩ | ⟨rfl, hbuf'⟩
    · exact ⟨_, _, _, hw', hbuf', hlog.appendAll fs⟩
    · exact ⟨_, _, _, hw', hbuf', (hlog.appendAll fs).roll⟩

/-! ### Every run -/

namespace Machine

/-- **Group commit is sound** in this state of a run that began with the log `fs`. -/
structure Sound (cfg : Config) (e : Faults) (strict linked : Prop) (fs : SimFs) (m : Machine) :
    Prop where
  /-- Distinct calls hold distinct numbers, and each the one under its frame. -/
  ticket : ∀ i seq frame, (m.calls i).ticket = some (seq, frame) →
    0 < seq ∧ m.claimed[seq - 1]? = some frame
  distinct : ∀ i j seq f g, (m.calls i).ticket = some (seq, f) →
    (m.calls j).ticket = some (seq, g) → i = j
  /-- A call that returned `Ok` has its frame in the synced bytes of the log. -/
  acked : ∀ i seq frame, m.calls i = .returned seq frame (.ok ()) →
    InSynced linked cfg.dir m.fs.disk frame
  /-- With no leader, the queue holds what is not synced. -/
  resting : m.coord.leaderActive = false → m.coord.queue.map Prod.fst =
    List.range' (m.coord.syncedThrough + 1) (m.coord.nextSeq - m.coord.syncedThrough)
  /-- With a leader, its batch and then the queue do. -/
  leading : m.coord.leaderActive = true → ∃ i seq frame batch p,
    m.calls i = .writing seq frame batch p ∧ (∀ j, j ≠ i → ¬ (m.calls j).isWriting) ∧
      (batch ++ m.coord.queue).map Prod.fst =
        List.range' (m.coord.syncedThrough + 1) (m.coord.nextSeq - m.coord.syncedThrough)
  /-- If no call fails and no id overflows, the log is the frames in order: all that are
  durable, and of a batch under way some. -/
  log : strict → (∀ o, ¬ e.fail o) → ∃ n, m.coord.syncedThrough ≤ n ∧ n ≤ m.coord.nextSeq ∧
    (m.coord.leaderActive = false → n = m.coord.syncedThrough) ∧
      Logged (segments fs cfg.dir) (m.claimed.take n) (segments m.fs cfg.dir)
  /-- Nobody sleeps with no leader to wake it. -/
  awake : ∀ i seq frame, m.calls i = .parked seq frame → m.coord.leaderActive = true

section Soundness

variable {cfg : Config} {e : Faults} {strict linked : Prop} {m : Machine}

theorem Inv.resting_queue {rest : List Bytes → Disk → Writer → Prop}
    {mid : List Bytes → List Bytes → Disk → Prop} (h : Inv e strict rest mid m)
    (hl : m.coord.leaderActive = false) : m.coord.queue.map Prod.fst =
      List.range' (m.coord.syncedThrough + 1) (m.coord.nextSeq - m.coord.syncedThrough) := by
  rcases h.phase with hr | ⟨i, seq, frame, fs, waiting, p, hlead⟩
  · rw [hr.queue, map_fst_tickets, List.length_drop, h.next]
  · rw [hlead.active] at hl
    cases hl

theorem Inv.leading_queue {rest : List Bytes → Disk → Writer → Prop}
    {mid : List Bytes → List Bytes → Disk → Prop} (h : Inv e strict rest mid m)
    (hl : m.coord.leaderActive = true) : ∃ i seq frame batch p,
      m.calls i = .writing seq frame batch p ∧ (∀ j, j ≠ i → ¬ (m.calls j).isWriting) ∧
        (batch ++ m.coord.queue).map Prod.fst =
          List.range' (m.coord.syncedThrough + 1) (m.coord.nextSeq - m.coord.syncedThrough) := by
  rcases h.phase with hr | ⟨i, seq, frame, fs, waiting, p, hlead⟩
  · rw [hr.idle] at hl
    cases hl
  · refine ⟨i, seq, frame, _, p, hlead.leader, hlead.only, ?_⟩
    rw [hlead.queue, ← tickets_append, map_fst_tickets, ← hlead.claimed, List.length_drop, h.next]

/-- What is in the log, on a storage whose calls do not fail. -/
theorem Inv.logged {bufs₀ : List (SegName × Bytes)}
    (h : Inv e strict (SoundRest bufs₀ cfg.dir) (SoundMid bufs₀ cfg.dir) m) :
    ∃ n, m.coord.syncedThrough ≤ n ∧ n ≤ m.coord.nextSeq ∧
      (m.coord.leaderActive = false → n = m.coord.syncedThrough) ∧
        Logged bufs₀ (m.claimed.take n) (segments m.fs cfg.dir) := by
  have hseg := buffers_segments h.tidy cfg.dir
  rcases h.phase with hr | ⟨i, seq, frame, fs, waiting, p, hlead⟩
  · obtain ⟨pre, a, c, _, hbuf, hlog⟩ := hr.rest
    refine ⟨_, Nat.le_refl _, h.next ▸ h.synced, fun _ => rfl, ?_⟩
    rw [hseg.unique hbuf]
    exact hlog
  · obtain ⟨done, bufs, ⟨more, hdone⟩, hbuf, hlog⟩ := (wp_crash hlead.owed).2
    have hlen := congrArg List.length hlead.claimed
    have htake : m.claimed.take (m.coord.syncedThrough + done.length) = m.safe ++ done := by
      rw [List.take_add, hlead.claimed, ← hdone, List.append_assoc, List.take_left]
      rfl
    refine ⟨m.coord.syncedThrough + done.length, Nat.le_add_right .., ?_, fun hl => ?_, ?_⟩
    · rw [List.length_drop, ← hdone, List.length_append, List.length_append] at hlen
      have := h.synced
      rw [h.next]
      omega
    · rw [hlead.active] at hl
      cases hl
    · rw [htake, hseg.unique hbuf]
      exact hlog

variable [Hashing]

/-- **Group commit is sound under any interleaving**, with any calls of the storage
failing. -/
theorem group_commit_sound {fs₀ fs : SimFs} {st : State} {rec : Recovered} (ht : fs₀.Tidy)
    (he : ∀ p data n, ¬ e.short p data n)
    (hopen : fs₀.exec (Wal.open cfg) () = some (.ok (st, rec), fs, ()))
    (hrun : Relation.ReflTransGen (Step cfg e strict) (start fs st) m) :
    Sound cfg e strict (Linked cfg.dir fs₀.disk) fs m := by
  obtain ⟨ht', _, _, hco, _, ⟨pre, a, c, htip, _⟩, hlink, _⟩ :=
    SimFs.exec_spec ht (wpE_open_any (H := False) (buffers_segments ht cfg.dir) (.true _)
      trivial) hopen
  have haim : Aimed (Linked cfg.dir fs₀.disk) cfg.dir a fs.disk :=
    ⟨htip.buffers.last_live, fun h => hlink h a htip.buffers.last_live⟩
  have hinv : Inv e strict (FaultyRest (Linked cfg.dir fs₀.disk) cfg.dir) _ m :=
    .run (faulty_writes cfg e _ _) (start_inv ht' ⟨a, htip.writes, haim, nofun⟩ hco) hrun
  have hsafe : ∀ f ∈ m.safe, InSynced (Linked cfg.dir fs₀.disk) cfg.dir m.fs.disk f :=
    hinv.storage (P := fun d => ∀ f ∈ m.safe, InSynced (Linked cfg.dir fs₀.disk) cfg.dir d f)
      (fun d w hr => hr.choose_spec.2.2) fun _ _ hm => hm
  refine ⟨hinv.calls.ticket, hinv.calls.distinct, fun i seq frame hi => hsafe frame ?_,
    hinv.resting_queue, hinv.leading_queue, fun hstrict hnofail => ?_, hinv.calls.parked⟩
  · obtain ⟨hpos, hc⟩ := hinv.calls.ticket i seq frame (by rw [hi]; rfl)
    have hle := hinv.calls.acked i seq frame hi
    refine List.mem_iff_getElem?.mpr ⟨seq - 1, ?_⟩
    rw [safe, List.getElem?_take_of_lt (by omega), hc]
  · have hseg : segments fs cfg.dir = pre ++ [(.plain a, c)] :=
      (buffers_segments ht' cfg.dir).unique htip.buffers
    have hinv' : Inv e strict (SoundRest (pre ++ [(.plain a, c)]) cfg.dir) _ m :=
      .run (sound_writes cfg hstrict hnofail he _)
        (start_inv ht' ⟨pre, a, c, htip.writes, htip.buffers, .nil⟩ hco) hrun
    rw [hseg]
    exact hinv'.logged

/-- A leader that nobody interrupts makes all its calls. -/
theorem run_batch {i seq : Nat} {frame : Bytes} {batch : List (Nat × Bytes)}
    {io : Except StorageError Unit} {σ' : SimFs × Writer}
    {p : Prog (Eff StorageOp Writer) (Eff.Resp StorageOp.Resp) (Except StorageError Unit)} :
    ∀ {m : Machine}, Completes (memSem (SimFs.sem e) strict) p (m.fs, m.writer) io σ' →
      m.calls i = .writing seq frame batch p →
      Relation.ReflTransGen (Step cfg e strict) m
        ({ m with fs := σ'.1, writer := σ'.2 }.setCall i (.writing seq frame batch (.ret io))) := by
  induction p with
  | ret a =>
    rintro m ⟨rfl, rfl⟩ hi
    have hsame : m.setCall i (.writing seq frame batch (.ret a)) = m := by
      rw [Machine.setCall, ← hi, Function.update_eq_self]
    show Relation.ReflTransGen (Step cfg e strict) m (m.setCall i _)
    rw [hsame]
  | op o k ih =>
    rintro m ⟨r, ⟨fs, w⟩, hs, hrest⟩ hi
    have hnext := ih r (m := { m with fs, writer := w }.setCall i (.writing seq frame batch (k r)))
      hrest (Function.update_self ..)
    simp only [Machine.setCall, Function.update_idem] at hnext ⊢
    exact .head (.call hi hs) hnext
  | hang => exact fun h => h.elim

end Soundness

section Example

open World

attribute [local instance] Hashing.emptyKey

section Play

variable (cfg : Config) (strict : Prop) [Decidable strict] (bad : Bool → StorageOp → Bool)

/-- A call goes once through its loop. -/
def loop (m : Machine) (i seq : Nat) (frame : Bytes) : Machine :=
  if m.coord.durable seq then m.setCall i (.returned seq frame (.ok ()))
  else if m.coord.leaderActive = true then m.setCall i (.parked seq frame)
  else { m with coord := m.coord.lead seq }.setCall i
    (.writing seq frame m.coord.queue (writeBatch cfg m.coord.queue).run)

/-- A leader that nobody interrupts writes its batch and publishes it. -/
def write (fails : Bool) (m : Machine) (i seq : Nat) (frame : Bytes) (batch : List (Nat × Bytes))
    (p : Prog (Eff StorageOp Writer) (Eff.Resp StorageOp.Resp) (Except StorageError Unit)) :
    Option Machine :=
  if strict → p.Exact (SimFs.runBut (bad fails)) (m.fs, m.writer) then
    (eval (memRun (SimFs.runBut (bad fails))) p (m.fs, m.writer)).map fun x =>
      ({ m with fs := x.2.1, writer := x.2.2 }.setCall i
        (.writing seq frame batch (.ret x.1))).publish i seq frame batch x.1
  else none

/-- What a call does next. -/
inductive Move
  | begins (i : Nat) (p : Bytes)
  | goes (i : Nat) (fails : Bool)

def Move.next (m : Machine) : Move → Option Machine
  | begins i p =>
    match m.calls i with
    | .idle => some (m.enqueue i (encode p))
    | _ => none
  | goes i fails =>
    match m.calls i with
    | .looping seq frame => some (m.loop cfg i seq frame)
    | .writing seq frame batch p => m.write strict bad fails i seq frame batch p
    | _ => none

def play (mvs : List Move) (m : Machine) : Option Machine := mvs.foldlM (Move.next cfg strict bad) m

variable {cfg strict bad} {e : Faults}

omit [Decidable strict] in
theorem steps_loop {m : Machine} {i seq : Nat} {frame : Bytes} (hi : m.calls i = .looping seq frame) :
    Relation.ReflTransGen (Step cfg e strict) m (m.loop cfg i seq frame) := by
  unfold loop
  by_cases hd : m.coord.durable seq
  · rw [if_pos hd]
    exact .single (.covered hi hd)
  · rw [if_neg hd]
    by_cases hl : m.coord.leaderActive = true
    · rw [if_pos hl]
      exact .single (.park hi hd hl)
    · rw [if_neg hl]
      exact .single (.lead hi hd (Bool.eq_false_iff.mpr hl))

theorem steps_write (hbad : ∀ fails o, bad fails o = true → e.fail o) {fails : Bool}
    {m m' : Machine} {i seq : Nat} {frame : Bytes} {batch : List (Nat × Bytes)}
    {p : Prog (Eff StorageOp Writer) (Eff.Resp StorageOp.Resp) (Except StorageError Unit)}
    (hi : m.calls i = .writing seq frame batch p)
    (h : m.write strict bad fails i seq frame batch p = some m') :
    Relation.ReflTransGen (Step cfg e strict) m m' := by
  unfold write at h
  split at h
  · rename_i hx
    obtain ⟨⟨io, fs, w⟩, heval, rfl⟩ := Option.map_eq_some_iff.mp h
    exact (run_batch (completes_of_exact (SimFs.step_runBut (hbad fails)) hx heval) hi).tail
      (.publish (Function.update_self ..))
  · cases h

theorem Move.steps (hbad : ∀ fails o, bad fails o = true → e.fail o) {mv : Move} {m m' : Machine}
    (h : mv.next cfg strict bad m = some m') : Relation.ReflTransGen (Step cfg e strict) m m' := by
  cases mv with
  | begins i p =>
    cases hi : m.calls i <;> rw [next, hi] at h <;> cases h
    exact .single (.enqueue p hi)
  | goes i fails =>
    cases hi : m.calls i with
    | looping seq frame =>
      rw [next, hi] at h
      exact Option.some.inj h ▸ steps_loop hi
    | writing seq frame batch p =>
      rw [next, hi] at h
      exact steps_write hbad hi h
    | _ =>
      rw [next, hi] at h
      cases h

theorem play_steps (hbad : ∀ fails o, bad fails o = true → e.fail o) {mvs : List Move} :
    ∀ {m m' : Machine}, play cfg strict bad mvs m = some m' →
      Relation.ReflTransGen (Step cfg e strict) m m' := by
  induction mvs with
  | nil =>
    intro m m' h
    cases h
    exact .refl
  | cons mv mvs ih =>
    intro m m' h
    obtain ⟨m₁, h₁, h⟩ := Option.bind_eq_some_iff.mp h
    exact (Move.steps hbad h₁).trans (ih h)

end Play

/-- A group commit with a new segment behind every batch. -/
def grouped : Config := ⟨[100], .groupCommit, 0⟩

/-- Calls of `sync_file` may fail. -/
def syncFails : Faults := ⟨fun o => ∃ p, o = .syncFile p, fun _ _ _ => False⟩

/-- The calls that do. -/
def failing (fails : Bool) : StorageOp → Bool
  | .syncFile _ => fails
  | _ => false

theorem fail_of_failing (fails : Bool) (o : StorageOp) (h : failing fails o = true) :
    syncFails.fail o := by
  cases o with
  | syncFile p => exact ⟨p, rfl⟩
  | _ => cases h

/-- The number of a call that has returned, and whether it returned `Ok`. -/
def result (m : Machine) (i : Nat) : Option (Nat × Bool) :=
  match m.calls i with
  | .returned seq _ (.ok _) => some (seq, true)
  | .returned seq _ (.error _) => some (seq, false)
  | _ => none

/-- The batch of call 0 fails.  Call 1 leads the next one, with the frames of all three
calls; call 2 waits for it, and is covered. -/
def threeCalls : List Move :=
  [.begins 0 [1], .goes 0 false, .goes 0 true, .begins 1 [2], .begins 2 [3, 3], .goes 1 false,
    .goes 2 false, .goes 1 false, .goes 2 false]

theorem group_commit_sound_demo : ∃ (fs : SimFs) (st : State) (rec : Recovered) (m : Machine),
    (SimFs.new calm).exec (Wal.open grouped) () = some (.ok (st, rec), fs, ()) ∧
      play grouped True failing threeCalls (start fs st) = some m ∧
      (m.result 0, m.result 1, m.result 2) = (some (1, false), some (2, true), some (3, true)) ∧
        Sound grouped syncFails True (Linked grouped.dir (SimFs.new calm).disk) fs m := by
  have hrun : ((opens grouped (SimFs.new calm)).bind fun x =>
      (play grouped True failing threeCalls (start x.2.2 x.1)).map fun m =>
        (m.result 0, m.result 1, m.result 2)) =
      some (some (1, false), some (2, true), some (3, true)) := by decide +kernel
  obtain ⟨⟨st, rec, fs⟩, hopen, hplay⟩ := Option.bind_eq_some_iff.mp hrun
  obtain ⟨m, hm, hresult⟩ := Option.map_eq_some_iff.mp hplay
  have hopen := exec_of_opens hopen
  exact ⟨fs, st, rec, m, hopen, hm, hresult, group_commit_sound (SimFs.new_tidy calm)
    (fun _ _ _ h => h) hopen (play_steps fail_of_failing hm)⟩

/-- Two calls, one behind the other. -/
def twoCalls : List Move :=
  [.begins 0 [1], .goes 0 false, .goes 0 false, .begins 1 [2], .goes 1 false, .goes 1 false]

/-- Behind the segment with the largest id comes segment 0, and the second frame stands in
front of the first. -/
theorem group_commit_rolls_over : ∃ (fs : SimFs) (st : State) (rec : Recovered) (m : Machine),
    lastOne.exec (Wal.open grouped) () = some (.ok (st, rec), fs, ()) ∧
      Relation.ReflTransGen (Step grouped Faults.none False) (start fs st) m ∧
      (m.result 0, m.result 1) = (some (1, true), some (2, true)) ∧
        ¬ Sound grouped Faults.none True (Linked grouped.dir lastOne.disk) fs m := by
  have hrun : ((opens grouped lastOne).bind fun x =>
      (play grouped False (fun _ _ => false) twoCalls (start x.2.2 x.1)).map fun m =>
        ((m.result 0, m.result 1), m.coord.leaderActive,
          decide ((segments m.fs grouped.dir).flatMap Prod.snd =
            (segments x.2.2 grouped.dir).flatMap Prod.snd ++
              (m.claimed.take m.coord.syncedThrough).flatten))) =
      some ((some (1, true), some (2, true)), false, false) := by decide +kernel
  obtain ⟨⟨st, rec, fs⟩, hopen, hplay⟩ := Option.bind_eq_some_iff.mp hrun
  obtain ⟨m, hm, hend⟩ := Option.map_eq_some_iff.mp hplay
  obtain ⟨hresult, hend⟩ := Prod.mk.inj hend
  obtain ⟨hleader, hbytes⟩ := Prod.mk.inj hend
  refine ⟨fs, st, rec, m, exec_of_opens hopen, play_steps (fun _ _ h => by cases h) hm, hresult,
    fun h => ?_⟩
  obtain ⟨n, -, -, hn, hlog⟩ := h.log trivial fun _ h => h
  rw [hn hleader] at hlog
  exact of_decide_eq_false hbytes hlog.bytes_eq

end Example

end Machine

end AccretionDb.Wal
