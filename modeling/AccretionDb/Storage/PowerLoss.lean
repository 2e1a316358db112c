import AccretionDb.Storage.Refine

/-! # What the simulator promises

The fault model of `SimFs`, over every sequence of its operations and power
losses.  A `Ledger` watches a run from outside and writes down what the fault
model speaks of: which file each name stood for when its directory was last
synced, which bytes each file had when it was last synced, and in which order the
appends came that no sync has covered since.  In every state of every run the
bindings name existing inodes and the durable images are those of the ledger, so
a power loss leaves just what the ledger says, but for one torn tail.
-/

namespace AccretionDb

open CrashLogic

/-- What happens to a simulated file system. -/
inductive FsEvent
  | call (o : StorageOp)
  | crash

namespace SimFs

/-- The state after an event; the answer of a call is dropped. -/
def after (s : SimFs) : FsEvent → SimFs
  | .call o => (run o s).2
  | .crash => s.crash

end SimFs

/-- The record an observer keeps of a run.  `saved` is what a file held when it was
last synced or last survived a power loss, `synced` counts syncs alone. -/
structure Ledger where
  names : Path → Option Nat
  saved : Nat → Bytes
  synced : Nat → Bytes
  appended : Nat → Option Nat
  appends : Nat

namespace Ledger

def new : Ledger := ⟨fun _ => none, fun _ => [], fun _ => [], fun _ => none, 0⟩

/-- What the observer writes down when the event happens in the state `s`. -/
def after (s : SimFs) (l : Ledger) : FsEvent → Ledger
  | .call (.append p _) =>
    match (s.files p).liveInode with
    | none => l
    | some i =>
      { l with appended := Function.update l.appended i (some l.appends), appends := l.appends + 1 }
  | .call (.syncFile p) =>
    match (s.files p).liveInode with
    | none => l
    | some i =>
      { l with
        saved := Function.update l.saved i (s.inodes i).live
        synced := Function.update l.synced i (s.inodes i).live
        appended := Function.update l.appended i none }
  | .call (.syncDir d) =>
    { l with names := fun p => if p.dir = d then (s.files p).liveInode else l.names p }
  | .call _ => l
  | .crash => { l with saved := fun i => (s.crash.inodes i).live, appended := fun _ => none }

/-- The unsynced tail of an inode. -/
def tail (l : Ledger) (s : SimFs) (i : Nat) : Bytes := (s.inodes i).live.drop (l.saved i).length

/-- The inode has a durable name and an unsynced append that left a tail. -/
def Exposed (l : Ledger) (s : SimFs) (i seq : Nat) : Prop :=
  (∃ p, l.names p = some i) ∧ l.appended i = some seq ∧ l.tail s i ≠ []

/-- Of the inodes with a durable name and an unsynced tail, this one has the newest
append. -/
def Newest (l : Ledger) (s : SimFs) (i : Nat) : Prop :=
  ∃ seq, l.Exposed s i seq ∧ ∀ j seq', l.Exposed s j seq' → j ≠ i → seq' < seq

end Ledger

/-- A run from the empty file system, with the observer's record. -/
def FsEvent.run : List FsEvent → SimFs × Ledger → SimFs × Ledger
  | [], x => x
  | e :: es, x => run es (x.1.after e, x.2.after x.1 e)

/-- What holds of the simulator and the record in every state of a run. -/
structure Ledger.Agrees (l : Ledger) (s : SimFs) : Prop where
  /-- Every binding is found and names an inode that exists. -/
  bound : ∀ p i, s.Bound p i → p ∈ s.paths ∧ i ∈ s.ids
  lt : ∀ i ∈ s.ids, i < s.nextInode
  missing : ∀ i, i ∉ s.ids → s.inodes i = .default
  short : ∀ i, (s.inodes i).durable.length ≤ (s.inodes i).live.length
  names : ∀ p, (s.files p).durableInode = l.names p
  saved : ∀ i ∈ s.ids, (s.inodes i).durable = l.saved i
  appended : ∀ i ∈ s.ids, (s.inodes i).lastAppendSeq = l.appended i
  unused : ∀ i, s.nextInode ≤ i → l.saved i = [] ∧ l.appended i = none
  appends : s.nextAppendSeq = l.appends
  numbered : ∀ i seq, l.appended i = some seq → seq < l.appends
  distinct : ∀ i j seq, l.appended i = some seq → l.appended j = some seq → i = j
  unarmed : s.crashAfter = none

namespace Ledger

theorem agrees_new (rng : Nat → Nat) : new.Agrees (SimFs.new rng) where
  bound := by rintro p i (h | h) <;> cases h
  lt := by simp [SimFs.new]
  missing := fun _ _ => rfl
  short := fun _ => Nat.le_refl _
  names := fun _ => rfl
  saved := by simp [SimFs.new]
  appended := by simp [SimFs.new]
  unused := fun _ _ => ⟨rfl, rfl⟩
  appends := rfl
  numbered := by
    intro i seq h
    cases h
  distinct := by
    intro i j seq h
    cases h
  unarmed := rfl

namespace Agrees

variable {l l' : Ledger} {s s' : SimFs}

theorem bump_eq (h : l.Agrees s) : s.bump = { s with opCount := s.opCount + 1 } := by
  simp only [SimFs.bump, h.unarmed]

theorem bump (h : l.Agrees s) : l.Agrees s.bump := by
  rw [h.bump_eq]
  exact { h with }

theorem referenced (h : l.Agrees s) {p : Path} {i : Nat} (hb : s.Bound p i) :
    s.referenced i = true := by
  refine List.any_eq_true.mpr ⟨p, (h.bound p i hb).1, ?_⟩
  rcases hb with hb | hb <;> simp [hb]

theorem collect (h : l.Agrees s) : l.Agrees s.collectUnreferencedInodes :=
  { h with
    bound := by
      intro p i hb
      refine ⟨(h.bound p i hb).1, List.mem_filter.mpr ⟨(h.bound p i hb).2, h.referenced hb⟩⟩
    lt := fun i hi => h.lt i (List.mem_filter.mp hi).1
    missing := by
      intro i hi
      show (if s.referenced i then s.inodes i else .default) = .default
      by_cases hr : s.referenced i = true
      · rw [if_pos hr]
        exact h.missing i fun hm => hi (List.mem_filter.mpr ⟨hm, hr⟩)
      · rw [if_neg hr]
    short := by
      intro i
      show (if s.referenced i then s.inodes i else .default).durable.length ≤
        (if s.referenced i then s.inodes i else .default).live.length
      by_cases hr : s.referenced i = true
      · rw [if_pos hr]
        exact h.short i
      · rw [if_neg hr]
        exact Nat.le_refl _
    saved := by
      intro i hi
      obtain ⟨hm, hr⟩ := List.mem_filter.mp hi
      show (if s.referenced i then s.inodes i else .default).durable = l.saved i
      rw [if_pos hr]
      exact h.saved i hm
    appended := by
      intro i hi
      obtain ⟨hm, hr⟩ := List.mem_filter.mp hi
      show (if s.referenced i then s.inodes i else .default).lastAppendSeq = l.appended i
      rw [if_pos hr]
      exact h.appended i hm }

/-- The bindings may change as long as they name inodes that were bound before. -/
theorem rebind (h : l.Agrees s) {files : Path → PathState} {paths : List Path}
    {names : Path → Option Nat}
    (bound : ∀ p i, (files p).liveInode = some i ∨ (files p).durableInode = some i →
      p ∈ paths ∧ ∃ q, s.Bound q i)
    (hnames : ∀ p, (files p).durableInode = names p) :
    Agrees { l with names } { s with files, paths } :=
  { h with
    bound := by
      intro p i hb
      obtain ⟨hp, q, hq⟩ := bound p i hb
      exact ⟨hp, (h.bound q i hq).2⟩
    names := hnames }

/-- One inode that exists may change, with its line in the record. -/
theorem edit (h : l.Agrees s) {i : Nat} (hi : i ∈ s.ids) (n : InodeState) (saved synced : Bytes)
    (hshort : n.durable.length ≤ n.live.length) (hsaved : n.durable = saved)
    (happ : ∀ seq, n.lastAppendSeq = some seq →
      seq < l.appends ∧ ∀ j, l.appended j = some seq → j = i) :
    Agrees { l with
      saved := Function.update l.saved i saved
      synced := Function.update l.synced i synced
      appended := Function.update l.appended i n.lastAppendSeq } (s.setInode i n) := by
  have hlt : i < s.nextInode := h.lt i hi
  have hown : ∀ j seq, Function.update l.appended i n.lastAppendSeq j = some seq →
      j = i ∧ n.lastAppendSeq = some seq ∨ j ≠ i ∧ l.appended j = some seq := by
    intro j seq hj
    by_cases e : j = i
    · subst e
      rw [Function.update_self] at hj
      exact Or.inl ⟨rfl, hj⟩
    · rw [Function.update_of_ne e] at hj
      exact Or.inr ⟨e, hj⟩
  exact { h with
    missing := by
      intro j hj
      have e : j ≠ i := fun e => hj (e ▸ hi)
      simp only [SimFs.setInode, if_neg e]
      exact h.missing j hj
    short := by
      intro j
      by_cases e : j = i
      · simpa only [SimFs.setInode, if_pos e] using hshort
      · simpa only [SimFs.setInode, if_neg e] using h.short j
    saved := by
      intro j hj
      by_cases e : j = i
      · subst e
        simpa only [SimFs.setInode, if_true, Function.update_self] using hsaved
      · simpa only [SimFs.setInode, if_neg e, Function.update_of_ne e] using h.saved j hj
    appended := by
      intro j hj
      by_cases e : j = i
      · subst e
        simp only [SimFs.setInode, if_true, Function.update_self]
      · simpa only [SimFs.setInode, if_neg e, Function.update_of_ne e] using h.appended j hj
    unused := by
      intro j hj
      have e : j ≠ i := by
        have hj' : s.nextInode ≤ j := hj
        omega
      simpa only [Function.update_of_ne e] using h.unused j hj
    numbered := by
      intro j seq hj
      rcases hown j seq hj with ⟨_, hn⟩ | ⟨_, hj⟩
      · exact (happ seq hn).1
      · exact h.numbered j seq hj
    distinct := by
      intro j k seq hj hk
      rcases hown j seq hj with ⟨rfl, hn⟩ | ⟨_, hj'⟩
      · rcases hown k seq hk with ⟨rfl, _⟩ | ⟨_, hk'⟩
        · rfl
        · exact ((happ seq hn).2 k hk').symm
      · rcases hown k seq hk with ⟨rfl, hn⟩ | ⟨_, hk'⟩
        · exact (happ seq hn).2 j hj'
        · exact h.distinct j k seq hj' hk' }

theorem create (h : l.Agrees s) (p : Path) : l.Agrees (s.create p).2 := by
  unfold SimFs.create
  cases hp : (s.files p).liveInode with
  | some _ => exact h
  | none =>
    refine bump ?_
    have hnew : s.nextInode ∉ s.ids := fun hm => Nat.lt_irrefl _ (h.lt _ hm)
    have hne : ∀ i ∈ s.ids, i ≠ s.nextInode := fun i hi e => hnew (e ▸ hi)
    have hids : ∀ i, i ∈ s.ids ++ [s.nextInode] ↔ i ∈ s.ids ∨ i = s.nextInode := by simp
    obtain ⟨hsaved, happ⟩ := h.unused s.nextInode (Nat.le_refl _)
    exact { h with
      bound := by
        intro q i hb
        by_cases hq : q = p
        · subst hq
          refine ⟨SimFs.mem_insertPath.mpr (Or.inl rfl), (hids i).mpr ?_⟩
          simp only [SimFs.Bound, SimFs.setFile, SimFs.setInode, if_true] at hb
          rcases hb with hb | hb
          · exact Or.inr (Option.some.inj hb).symm
          · exact Or.inl (h.bound q i (Or.inr hb)).2
        · simp only [SimFs.Bound, SimFs.setFile, SimFs.setInode, if_neg hq] at hb
          have := h.bound q i hb
          exact ⟨SimFs.mem_insertPath.mpr (Or.inr this.1), (hids i).mpr (Or.inl this.2)⟩
      lt := by
        intro i hi
        show i < s.nextInode + 1
        rcases (hids i).mp hi with hi | hi
        · have := h.lt i hi
          omega
        · omega
      missing := by
        intro i hi
        have hi' : i ∉ s.ids := fun hm => hi ((hids i).mpr (Or.inl hm))
        show (if i = s.nextInode then InodeState.default else s.inodes i) = _
        rw [h.missing i hi', ite_self]
      short := by
        intro i
        show (if i = s.nextInode then InodeState.default else s.inodes i).durable.length ≤
          (if i = s.nextInode then InodeState.default else s.inodes i).live.length
        by_cases e : i = s.nextInode
        · rw [if_pos e]
          exact Nat.le_refl _
        · rw [if_neg e]
          exact h.short i
      names := by
        intro q
        by_cases hq : q = p
        · subst hq
          simpa only [SimFs.setFile, SimFs.setInode, if_true] using h.names q
        · simpa only [SimFs.setFile, SimFs.setInode, if_neg hq] using h.names q
      saved := by
        intro i hi
        show (if i = s.nextInode then InodeState.default else s.inodes i).durable = _
        rcases (hids i).mp hi with hi | rfl
        · rw [if_neg (hne i hi)]
          exact h.saved i hi
        · rw [if_pos rfl, hsaved]
          rfl
      appended := by
        intro i hi
        show (if i = s.nextInode then InodeState.default else s.inodes i).lastAppendSeq = _
        rcases (hids i).mp hi with hi | rfl
        · rw [if_neg (hne i hi)]
          exact h.appended i hi
        · rw [if_pos rfl, happ]
          rfl
      unused := by
        intro i hi
        exact h.unused i (Nat.le_of_succ_le hi) }

theorem append (h : l.Agrees s) (p : Path) (data : Bytes) :
    (l.after s (.call (.append p data))).Agrees (s.append p data).2 := by
  cases hp : (s.files p).liveInode with
  | none =>
    simp only [SimFs.append, Ledger.after, hp]
    exact h
  | some i =>
    simp only [SimFs.append, Ledger.after, hp]
    refine bump ?_
    have hi : i ∈ s.ids := (h.bound p i (Or.inl hp)).2
    have ht : Agrees { l with appends := l.appends + 1 }
        { s with nextAppendSeq := s.nextAppendSeq + 1 } :=
      { h with
        appends := congrArg (· + 1) h.appends
        numbered := fun i seq hj => Nat.lt_succ_of_lt (h.numbered i seq hj) }
    have := ht.edit hi
      { s.inodes i with live := (s.inodes i).live ++ data, lastAppendSeq := some s.nextAppendSeq }
      (l.saved i) (l.synced i)
      (by
        have := h.short i
        show (s.inodes i).durable.length ≤ ((s.inodes i).live ++ data).length
        rw [List.length_append]
        omega)
      (h.saved i hi)
      (by
        rintro seq hs
        have hs' : s.nextAppendSeq = seq := Option.some.inj hs
        rw [h.appends] at hs'
        refine ⟨by show seq < l.appends + 1; omega, fun j hj => ?_⟩
        have := h.numbered j seq hj
        omega)
    simp only [Function.update_eq_self] at this
    rw [← h.appends] at this ⊢
    exact this

theorem writeAt (h : l.Agrees s) (p : Path) (offset : Nat) (data : Bytes) :
    l.Agrees (s.writeAt p offset data).2 := by
  unfold SimFs.writeAt
  cases hp : (s.files p).liveInode with
  | none => exact h
  | some i =>
    dsimp only
    split
    · exact h
    · rename_i hb
      refine bump ?_
      have hi : i ∈ s.ids := (h.bound p i (Or.inl hp)).2
      have := h.edit hi
        { s.inodes i with live :=
          (s.inodes i).live.take offset ++ data ++ (s.inodes i).live.drop (offset + data.length) }
        (l.saved i) (l.synced i)
        (by
          have := h.short i
          simp only [List.length_append, List.length_take, List.length_drop]
          omega)
        (h.saved i hi)
        (by
          intro seq hs
          rw [h.appended i hi] at hs
          exact ⟨h.numbered i seq hs, fun j hj => h.distinct j i seq hj hs⟩)
      simp only [h.appended i hi, Function.update_eq_self] at this
      rw [h.appended i hi]
      exact this

theorem syncFile (h : l.Agrees s) (p : Path) :
    (l.after s (.call (.syncFile p))).Agrees (s.syncFile p).2 := by
  cases hp : (s.files p).liveInode with
  | none =>
    simp only [SimFs.syncFile, Ledger.after, hp]
    exact h
  | some i =>
    simp only [SimFs.syncFile, Ledger.after, hp]
    refine bump ?_
    have hi : i ∈ s.ids := (h.bound p i (Or.inl hp)).2
    exact h.edit hi ⟨(s.inodes i).live, (s.inodes i).live, none⟩ (s.inodes i).live
      (s.inodes i).live (Nat.le_refl _) rfl fun _ hs => by cases hs

theorem syncDir (h : l.Agrees s) (d : Dir) :
    (l.after s (.call (.syncDir d))).Agrees (s.syncDir d).2 := by
  refine bump (collect (h.rebind ?_ ?_))
  · intro p i hb
    have hb' : s.Bound p i := by
      by_cases hd : p.dir = d
      · simp only [if_pos hd, or_self] at hb
        exact Or.inl hb
      · simp only [if_neg hd] at hb
        exact hb
    refine ⟨List.mem_filter.mpr ⟨(h.bound p i hb').1, ?_⟩, p, hb'⟩
    rcases hb with hb | hb <;> simp only [hb, Option.isSome_some, Bool.or_true, Bool.true_or]
  · intro p
    by_cases hd : p.dir = d
    · simp only [if_pos hd]
    · simp only [if_neg hd]
      exact h.names p

theorem rename (h : l.Agrees s) (src dst : Path) : l.Agrees (s.rename src dst).2 := by
  unfold SimFs.rename
  cases hp : (s.files src).liveInode with
  | none => exact h
  | some i =>
    refine bump (collect ?_)
    by_cases he : src = dst
    · rw [if_pos he]
      exact h
    · rw [if_neg he]
      have he' : dst ≠ src := fun e => he e.symm
      refine h.rebind ?_ ?_
      · intro q j hb
        by_cases h1 : q = src
        · subst h1
          simp only [SimFs.setFile, if_true, if_neg he] at hb
          rcases hb with hb | hb
          · cases hb
          · exact ⟨SimFs.mem_insertPath.mpr (Or.inl rfl), q, Or.inr hb⟩
        · by_cases h2 : q = dst
          · subst h2
            simp only [SimFs.setFile, if_true, if_neg he'] at hb
            refine ⟨SimFs.mem_insertPath.mpr (Or.inr (SimFs.mem_insertPath.mpr (Or.inl rfl))), ?_⟩
            rcases hb with hb | hb
            · exact ⟨src, Or.inl (hp.trans hb)⟩
            · exact ⟨q, Or.inr hb⟩
          · simp only [SimFs.setFile, if_neg h1, if_neg h2] at hb
            exact ⟨SimFs.mem_insertPath.mpr
              (Or.inr (SimFs.mem_insertPath.mpr (Or.inr (h.bound q j hb).1))), q, hb⟩
      · intro q
        by_cases h1 : q = src <;> by_cases h2 : q = dst <;>
          simpa [SimFs.setFile, h1, h2, he, he'] using h.names _

theorem delete (h : l.Agrees s) (p : Path) : l.Agrees (s.delete p).2 := by
  unfold SimFs.delete
  cases hp : (s.files p).liveInode with
  | none => exact h
  | some _ =>
    refine bump (collect (h.rebind ?_ ?_))
    · intro q i hb
      by_cases hq : q = p
      · subst hq
        simp only [if_true] at hb
        rcases hb with hb | hb
        · cases hb
        · exact ⟨SimFs.mem_insertPath.mpr (Or.inl rfl), q, Or.inr hb⟩
      · simp only [if_neg hq] at hb
        exact ⟨SimFs.mem_insertPath.mpr (Or.inr (h.bound q i hb).1), q, hb⟩
    · intro q
      by_cases hq : q = p
      · subst hq
        simpa only [if_true] using h.names q
      · simpa only [if_neg hq] using h.names q

theorem crash (h : l.Agrees s) : (l.after s .crash).Agrees s.crash where
  bound := by
    intro p i hb
    have hb : (s.files p).durableInode = some i := by
      rwa [SimFs.Bound, SimFs.crash_files, or_self] at hb
    obtain ⟨hp, hi⟩ := h.bound p i (Or.inr hb)
    rw [SimFs.crash_paths, SimFs.crash_ids]
    refine ⟨List.mem_filter.mpr ⟨hp, by rw [hb]; rfl⟩, List.mem_filter.mpr ⟨hi, ?_⟩⟩
    exact SimFs.referenced_revert.mpr ⟨p, hp, hb⟩
  lt := by
    intro i hi
    rw [SimFs.crash_ids] at hi
    rw [SimFs.crash_nextInode]
    exact h.lt i (List.mem_filter.mp hi).1
  missing := by
    intro i hi
    rw [SimFs.crash_ids, List.mem_filter, not_and] at hi
    rw [SimFs.crash_inodes_eq, if_neg]
    intro hr
    obtain ⟨p, hp, hd⟩ := SimFs.referenced_revert.mp hr
    exact hi (h.bound p i (Or.inr hd)).2 hr
  short := fun i => Nat.le_of_eq (congrArg List.length (SimFs.crash_inodes_synced s i).symm)
  names := by
    intro p
    rw [SimFs.crash_files]
    exact h.names p
  saved := fun i _ => (SimFs.crash_inodes_synced s i).symm
  appended := by
    intro i _
    rw [SimFs.crash_inodes_eq]
    split <;> rfl
  unused := by
    intro i hi
    rw [SimFs.crash_nextInode] at hi
    have hr : ¬ s.revert.referenced i = true := by
      intro hr
      obtain ⟨p, _, hd⟩ := SimFs.referenced_revert.mp hr
      have := h.lt i (h.bound p i (Or.inr hd)).2
      omega
    refine ⟨?_, rfl⟩
    show (s.crash.inodes i).live = []
    rw [SimFs.crash_inodes_eq, if_neg hr]
    rfl
  appends := by
    rw [SimFs.crash_nextAppendSeq]
    exact h.appends
  numbered := by
    intro i seq hs
    cases hs
  distinct := by
    intro i j seq hs
    cases hs
  unarmed := SimFs.crash_unarmed s

/-- One event of the run, and its line in the record. -/
theorem after (h : l.Agrees s) (e : FsEvent) : (l.after s e).Agrees (s.after e) := by
  cases e with
  | crash => exact h.crash
  | call o =>
    cases o with
    | create p => exact h.create p
    | «open» p =>
      show l.Agrees (s.open p).2
      unfold SimFs.open
      cases (s.files p).liveInode <;> exact h
    | append p data => exact h.append p data
    | writeAt p offset data => exact h.writeAt p offset data
    | readAt p offset len =>
      show l.Agrees (s.readAt p offset len).2
      unfold SimFs.readAt
      cases (s.files p).liveInode with
      | none => exact h
      | some i =>
        dsimp only
        split <;> exact h
    | syncFile p => exact h.syncFile p
    | syncDir d => exact h.syncDir d
    | rename src dst => exact h.rename src dst
    | delete p => exact h.delete p
    | list d => exact h
    | len p =>
      show l.Agrees (s.len p).2
      unfold SimFs.len
      cases (s.files p).liveInode <;> exact h

end Agrees

/-- The record agrees with the simulator in every state of every run. -/
theorem agrees_run : ∀ (es : List FsEvent) {x : SimFs × Ledger}, x.2.Agrees x.1 →
    (FsEvent.run es x).2.Agrees (FsEvent.run es x).1 := by
  intro es
  induction es with
  | nil => exact id
  | cons e es ih => exact fun h => ih (h.after e)

end Ledger

/-! ### The torn inode -/

namespace SimFs

/-- The inode may be torn: it has a durable name and an unsynced tail. -/
def Candidate (s : SimFs) (i seq : Nat) : Prop :=
  (s.inodes i).lastAppendSeq = some seq ∧
    (s.inodes i).durable.length < (s.inodes i).live.length ∧ s.durablyReferenced i = true

/-- How the search for the torn inode goes on. -/
def tearStep (s : SimFs) (best : Option (Nat × Nat)) (i : Nat) : Option (Nat × Nat) :=
  match (s.inodes i).lastAppendSeq with
  | none => best
  | some seq =>
    if (s.inodes i).durable.length < (s.inodes i).live.length ∧ s.durablyReferenced i then
      match best with
      | none => some (seq, i)
      | some b => if b.1 ≤ seq then some (seq, i) else some b
    else best

/-- One more inode is looked at: what was found stays or is replaced by that inode,
and it is at least as new as both. -/
theorem tearStep_spec (s : SimFs) (best : Option (Nat × Nat)) (i : Nat) :
    (∀ b, s.tearStep best i = some b → best = some b ∨ b.2 = i ∧ s.Candidate i b.1) ∧
      (∀ b, best = some b → ∃ b', s.tearStep best i = some b' ∧ b.1 ≤ b'.1) ∧
      ∀ seq, s.Candidate i seq → ∃ b', s.tearStep best i = some b' ∧ seq ≤ b'.1 := by
  unfold tearStep Candidate
  cases ha : (s.inodes i).lastAppendSeq with
  | none => exact ⟨fun b h => Or.inl h, fun b h => ⟨b, h, Nat.le_refl _⟩, fun seq h => by cases h.1⟩
  | some n =>
    dsimp only
    by_cases hc : (s.inodes i).durable.length < (s.inodes i).live.length ∧ s.durablyReferenced i
    · rw [if_pos hc]
      have hnew : ∀ seq, some n = some seq → seq ≤ n := fun seq h =>
        Nat.le_of_eq (Option.some.inj h).symm
      cases best with
      | none =>
        refine ⟨?_, (fun b h => by cases h), fun seq h => ⟨_, rfl, hnew seq h.1⟩⟩
        rintro b ⟨⟩
        exact Or.inr ⟨rfl, rfl, hc⟩
      | some c =>
        dsimp only
        by_cases hle : c.1 ≤ n
        · rw [if_pos hle]
          refine ⟨?_, ?_, fun seq h => ⟨_, rfl, hnew seq h.1⟩⟩
          · rintro b ⟨⟩
            exact Or.inr ⟨rfl, rfl, hc⟩
          · rintro b ⟨⟩
            exact ⟨_, rfl, hle⟩
        · rw [if_neg hle]
          refine ⟨fun b h => Or.inl h, fun b h => ⟨b, h, Nat.le_refl _⟩, fun seq h => ⟨c, rfl, ?_⟩⟩
          have := hnew seq h.1
          omega
    · rw [if_neg hc]
      exact ⟨fun b h => Or.inl h, fun b h => ⟨b, h, Nat.le_refl _⟩, fun seq h => absurd h.2 hc⟩

theorem tearFold_spec (s : SimFs) (is : List Nat) : ∀ best : Option (Nat × Nat),
    (∀ b, is.foldl s.tearStep best = some b → best = some b ∨ b.2 ∈ is ∧ s.Candidate b.2 b.1) ∧
      (∀ b, best = some b → ∃ b', is.foldl s.tearStep best = some b' ∧ b.1 ≤ b'.1) ∧
      ∀ i ∈ is, ∀ seq, s.Candidate i seq →
        ∃ b', is.foldl s.tearStep best = some b' ∧ seq ≤ b'.1 := by
  induction is with
  | nil =>
    intro best
    exact ⟨fun b h => Or.inl h, fun b h => ⟨b, h, Nat.le_refl _⟩, fun i h => by cases h⟩
  | cons i is ih =>
    intro best
    obtain ⟨hfrom, hkeep, hnew⟩ := tearStep_spec s best i
    obtain ⟨ihfrom, ihkeep, ihnew⟩ := ih (s.tearStep best i)
    refine ⟨?_, ?_, ?_⟩
    · intro b hb
      rcases ihfrom b hb with h | ⟨hm, hc⟩
      · rcases hfrom b h with h | ⟨he, hc⟩
        · exact Or.inl h
        · exact Or.inr ⟨List.mem_cons.mpr (Or.inl he), by rwa [he]⟩
      · exact Or.inr ⟨List.mem_cons_of_mem _ hm, hc⟩
    · intro b hb
      obtain ⟨c, hc, hle⟩ := hkeep b hb
      obtain ⟨d, hd, hle'⟩ := ihkeep c hc
      exact ⟨d, hd, hle.trans hle'⟩
    · intro j hj seq hc
      rcases List.mem_cons.mp hj with rfl | hj
      · obtain ⟨c, hc', hle⟩ := hnew seq hc
        obtain ⟨d, hd, hle'⟩ := ihkeep c hc'
        exact ⟨d, hd, hle.trans hle'⟩
      · exact ihnew j hj seq hc

theorem tearTarget_eq (s : SimFs) : s.tearTarget = (List.range s.nextInode).foldl s.tearStep none :=
  rfl

end SimFs

namespace Ledger.Agrees

variable {l : Ledger} {s : SimFs}

theorem candidate_iff (h : l.Agrees s) {i seq : Nat} :
    s.Candidate i seq ↔ l.Exposed s i seq := by
  have hdur : s.durablyReferenced i = true ↔ ∃ p, l.names p = some i := by
    unfold SimFs.durablyReferenced
    rw [List.any_eq_true]
    simp only [beq_iff_eq]
    constructor
    · rintro ⟨p, _, hp⟩
      exact ⟨p, by rw [← h.names, hp]⟩
    · rintro ⟨p, hp⟩
      rw [← h.names] at hp
      exact ⟨p, (h.bound p i (Or.inr hp)).1, hp⟩
  unfold SimFs.Candidate Exposed
  rw [hdur]
  constructor
  · rintro ⟨ha, hl, p, hp⟩
    have hi : i ∈ s.ids := (h.bound p i (Or.inr ((h.names p).trans hp))).2
    refine ⟨⟨p, hp⟩, (h.appended i hi).symm.trans ha, fun ht => ?_⟩
    have := congrArg List.length ht
    rw [tail, ← h.saved i hi, List.length_drop, List.length_nil] at this
    omega
  · rintro ⟨⟨p, hp⟩, ha, ht⟩
    have hi : i ∈ s.ids := (h.bound p i (Or.inr ((h.names p).trans hp))).2
    refine ⟨(h.appended i hi).trans ha, ?_, p, hp⟩
    have := List.length_pos_iff.mpr ht
    rw [tail, ← h.saved i hi, List.length_drop] at this
    omega

theorem lt_of_exposed (h : l.Agrees s) {i seq : Nat} (he : l.Exposed s i seq) : i < s.nextInode := by
  obtain ⟨⟨p, hp⟩, _⟩ := he
  exact h.lt i (h.bound p i (Or.inr ((h.names p).trans hp))).2

/-- The inode the simulator tears has the newest unsynced append. -/
theorem newest_of_tearTarget (h : l.Agrees s) {b : Nat × Nat} (hb : s.tearTarget = some b) :
    l.Newest s b.2 := by
  rw [SimFs.tearTarget_eq] at hb
  obtain ⟨hfrom, _, hnew⟩ := SimFs.tearFold_spec s (List.range s.nextInode) none
  rcases hfrom b hb with hn | ⟨_, hc⟩
  · cases hn
  · have hx := h.candidate_iff.mp hc
    refine ⟨b.1, hx, fun j seq he hne => ?_⟩
    obtain ⟨b', hb', hle⟩ :=
      hnew j (List.mem_range.mpr (h.lt_of_exposed he)) seq (h.candidate_iff.mpr he)
    obtain rfl : b = b' := Option.some.inj (hb.symm.trans hb')
    refine Nat.lt_of_le_of_ne hle fun e => hne ?_
    exact h.distinct j b.2 seq he.2.1 (e ▸ hx.2.1)

end Ledger.Agrees

/-! ### The fault model -/

namespace Ledger

/-- What a power loss leaves in the state `s`, by the record `l`: the names of the
last directory syncs, and in every file the bytes it had saved, but for one inode
that also keeps what a tear leaves of its tail. -/
structure Leaves (l : Ledger) (s s' : SimFs) : Prop where
  names : ∀ p, s'.files p = ⟨l.names p, l.names p⟩
  paths : ∀ p, p ∈ s'.paths ↔ (l.names p).isSome
  bytes : ∃ torn : Option Nat, (∀ i, torn = some i → l.Newest s i) ∧
    ∀ p i, l.names p = some i → (s'.inodes i).live = (s'.inodes i).durable ∧
      if torn = some i then Torn ⟨l.saved i, l.tail s i⟩ (s'.inodes i).live
      else (s'.inodes i).live = l.saved i

/-- A power loss leaves what the record says. -/
theorem Agrees.leaves {l : Ledger} {s : SimFs} (h : l.Agrees s) : l.Leaves s s.crash where
  names := by
    intro p
    rw [SimFs.crash_files, h.names]
  paths := by
    intro p
    rw [SimFs.crash_paths, List.mem_filter, h.names]
    refine ⟨And.right, fun hp => ⟨?_, hp⟩⟩
    obtain ⟨i, hi⟩ := Option.isSome_iff_exists.mp hp
    exact (h.bound p i (Or.inr ((h.names p).trans hi))).1
  bytes := by
    refine ⟨s.tearTarget.map Prod.snd, fun i hi => ?_, fun p i hp => ?_⟩
    · obtain ⟨b, hb, rfl⟩ := Option.map_eq_some_iff.mp hi
      exact h.newest_of_tearTarget hb
    · have hd : (s.files p).durableInode = some i := (h.names p).trans hp
      obtain ⟨hm, hi⟩ := h.bound p i (Or.inr hd)
      have hin := SimFs.crash_inodes_eq s i
      rw [if_pos (SimFs.referenced_revert.mpr ⟨p, hm, hd⟩)] at hin
      refine ⟨SimFs.crash_inodes_synced s i, ?_⟩
      rw [hin]
      by_cases ht : s.tearTarget.map Prod.snd = some i
      · rw [if_pos ht, tail, ← h.saved i hi]
        exact SimFs.torn_tornInode s i
      · rw [if_neg ht, ← h.saved i hi]
        show s.tornInode i = _
        unfold SimFs.tornInode
        cases hb : s.tearTarget with
        | none => rfl
        | some b =>
          have hne : i ≠ b.2 := fun e => ht (by rw [hb, e]; rfl)
          simp only [if_neg hne]

end Ledger

namespace SimFs

theorem crash_ext {s s' : SimFs} (hp : s.paths = s'.paths) (hf : s.files = s'.files)
    (hi : s.inodes = s'.inodes) (hids : s.ids = s'.ids) (hn : s.nextInode = s'.nextInode)
    (ho : s.opCount = s'.opCount) (ha : s.nextAppendSeq = s'.nextAppendSeq)
    (hc : s.crashAfter = s'.crashAfter) (hl : s.lastReport = s'.lastReport) (hr : s.rng = s'.rng) :
    s = s' := by
  obtain ⟨⟩ := s
  obtain ⟨⟩ := s'
  simp only at *
  subst hp hf hi hids hn ho ha hc hl hr
  rfl

theorem tearTarget_crash (s : SimFs) : s.crash.tearTarget = none := by
  cases h : s.crash.tearTarget with
  | none => rfl
  | some b =>
    have ht := tearTarget_tail h
    rw [crash_inodes_synced] at ht
    exact absurd ht (Nat.lt_irrefl _)

theorem referenced_revert_crash (s : SimFs) : s.crash.revert.referenced = s.revert.referenced := by
  funext i
  rw [Bool.eq_iff_iff, referenced_revert, referenced_revert]
  simp only [crash_paths, crash_files, List.mem_filter]
  constructor
  · rintro ⟨p, ⟨hp, _⟩, h⟩
    exact ⟨p, hp, h⟩
  · rintro ⟨p, hp, h⟩
    exact ⟨p, ⟨hp, by rw [h]; rfl⟩, h⟩

theorem crash_of_none {s : SimFs} (h : s.tearTarget = none) :
    s.crash = { s.revert.collectUnreferencedInodes with
      crashAfter := none
      lastReport := some ⟨s.opCount, none, .drop, 0, 0⟩ } := by
  unfold crash
  rw [h]

/-- A second power loss only writes a new report. -/
theorem crash_crash (s : SimFs) :
    s.crash.crash = { s.crash with lastReport := some ⟨s.crash.opCount, none, .drop, 0, 0⟩ } := by
  have ht : s.crash.crash = { s.crash.revert.collectUnreferencedInodes with
      crashAfter := none
      lastReport := some ⟨s.crash.opCount, none, .drop, 0, 0⟩ } :=
    crash_of_none (tearTarget_crash s)
  have hf : s.crash.crash.files = s.crash.files := by
    funext p
    simp only [crash_files]
  have hp : s.crash.crash.paths = s.crash.paths := by
    rw [crash_paths s.crash, crash_paths s, List.filter_filter]
    refine List.filter_congr fun p _ => ?_
    rw [crash_files, Bool.and_self]
  have hi : s.crash.crash.inodes = s.crash.inodes := by
    funext i
    rw [crash_inodes_eq s.crash, referenced_revert_crash]
    by_cases hr : s.revert.referenced i = true
    · rw [if_pos hr, crash_inodes_eq s, if_pos hr, tornInode, tearTarget_crash]
      simp only [crash_inodes_eq s i, if_pos hr]
    · rw [if_neg hr, crash_inodes_eq s, if_neg hr]
  have hids : s.crash.crash.ids = s.crash.ids := by
    rw [crash_ids s.crash, crash_ids s, List.filter_filter]
    refine List.filter_congr fun i _ => ?_
    rw [referenced_revert_crash, Bool.and_self]
  rw [ht] at hf hp hi hids ⊢
  exact crash_ext hp hf hi hids rfl rfl rfl (crash_unarmed s).symm rfl rfl

/-- **The simulator keeps its fault model.** Whatever happened to a new file system,
every binding names an inode that exists and no durable image is longer than the
live one; a power loss leaves the names of the last directory syncs and in every
file the bytes it had when last synced or last recovered, but for one torn tail,
that of the newest unsynced append; and a second power loss changes nothing. -/
theorem fault_model (rng : Nat → Nat) (es : List FsEvent) :
    let (s, l) := FsEvent.run es (SimFs.new rng, Ledger.new)
    (∀ p i, s.Bound p i → i ∈ s.ids) ∧
      (∀ i, (s.inodes i).durable.length ≤ (s.inodes i).live.length) ∧
      l.Leaves s s.crash ∧
      s.crash.crash = { s.crash with lastReport := some ⟨s.crash.opCount, none, .drop, 0, 0⟩ } := by
  have h := Ledger.agrees_run es (x := (SimFs.new rng, Ledger.new)) (Ledger.agrees_new rng)
  exact ⟨fun p i hb => (h.bound p i hb).2, h.short, h.leaves, crash_crash _⟩

/-- Two power losses: the first one lets the unsynced byte of `a` through, the second
one that of `b`.  Then two files hold more than at their last sync. -/
theorem two_files_torn :
    let a : Path := ⟨[], .other [97]⟩
    let b : Path := ⟨[], .other [98]⟩
    let (s, l) := FsEvent.run
      [.call (.create a), .call (.create b), .call (.syncDir []),
        .call (.append a [1]), .crash, .call (.append b [2])] (SimFs.new fun _ => 1, Ledger.new)
    l.names a = some 1 ∧ l.synced 1 = [] ∧ (s.crash.inodes 1).live = [1] ∧
      l.names b = some 2 ∧ l.synced 2 = [] ∧ (s.crash.inodes 2).live = [2] := by
  decide

end SimFs

end AccretionDb
