import AccretionDb.Db.Put
import AccretionDb.Db.Read
import AccretionDb.Db.Run

/-! # What a client knows

A client puts, deletes, flushes and reads, one call after the other.  It knows which
writes it called and which of them returned `Ok` (`Attempt`); the history in the store is
that of some of them, with all that were acknowledged (`Written`).  Between two calls the
handle is `Idle`, and no call ends otherwise (`wpE_program`, `wpE_get_idle`,
`wpE_scan_idle`).
-/

namespace AccretionDb.Db

open CrashLogic

/-! ### Writes that were called -/

/-- A write that was called, with the sequence number it claimed, and whether it
returned `Ok`. -/
structure Attempt where
  entry : Entry
  acked : Bool

def entries (ws : List Attempt) : List Entry := ws.map Attempt.entry

/-- Some of the attempts, among them all that were acknowledged. -/
def Chosen (all kept : List Attempt) : Prop :=
  kept.Sublist all ∧ kept.filter Attempt.acked = all.filter Attempt.acked

theorem Chosen.refl (ws : List Attempt) : Chosen ws ws := ⟨.refl ws, rfl⟩

theorem Chosen.concat {all kept : List Attempt} (h : Chosen all kept) (a : Attempt) :
    Chosen (all ++ [a]) (kept ++ [a]) :=
  ⟨h.1.append (.refl _), by rw [List.filter_append, List.filter_append, h.2]⟩

theorem Chosen.skip {all kept : List Attempt} (h : Chosen all kept) {a : Attempt}
    (ha : a.acked = false) : Chosen (all ++ [a]) kept := by
  refine ⟨h.1.trans (List.sublist_append_left all [a]), ?_⟩
  rw [List.filter_append, List.filter_cons_of_neg (by rw [ha]; exact Bool.false_ne_true),
    List.filter_nil, List.append_nil]
  exact h.2

/-- Where all were acknowledged, all are chosen. -/
theorem Chosen.eq {all kept : List Attempt} (h : Chosen all kept)
    (ha : ∀ a ∈ all, a.acked = true) : kept = all := by
  have hall : all.filter Attempt.acked = all := List.filter_eq_self.mpr ha
  have hkept : kept.filter Attempt.acked = kept :=
    List.filter_eq_self.mpr fun a hm => ha a (h.1.subset hm)
  rw [← hkept, h.2, hall]

/-- The history is that of chosen attempts, each later than those before it. -/
def Written (ws : List Attempt) (H : History Bytes InternalValue) : Prop :=
  ∃ kept, Chosen ws kept ∧ Rising (entries kept) ∧ H = History.ofList (entries kept)

namespace Written

variable {ws : List Attempt} {H : History Bytes InternalValue}

theorem nil : Written [] ⊥ := by
  have hnone : History.ofList [] = (⊥ : History Bytes InternalValue) := by
    rw [← bot_sup_eq (History.ofList []), History.sup_ofList_nil]
  exact ⟨[], .refl [], .nil, hnone.symm⟩

theorem concat (h : Written ws H) {e : Entry} (hlt : ∀ k v, H k v → v.seq < e.2.seq)
    (acked : Bool) : Written (ws ++ [⟨e, acked⟩]) (H.add e.1 e.2) := by
  obtain ⟨kept, hc, hr, rfl⟩ := h
  have hes : entries (kept ++ [⟨e, acked⟩]) = entries kept ++ [e] := List.map_append
  have hadd := sup_ofList_concat ⊥ (entries kept) e
  rw [bot_sup_eq, bot_sup_eq] at hadd
  refine ⟨_, hc.concat _, ?_, by rw [hes, hadd]⟩
  rw [hes]
  refine List.pairwise_append.mpr ⟨hr, List.pairwise_singleton _ _, fun x hx y hy => ?_⟩
  obtain rfl := List.mem_singleton.mp hy
  exact hlt x.1 x.2 hx

theorem skip (h : Written ws H) (e : Entry) : Written (ws ++ [⟨e, false⟩]) H := by
  obtain ⟨kept, hc, hr, rfl⟩ := h
  exact ⟨kept, hc.skip rfl, hr, rfl⟩

theorem means (h : Written ws H) :
    ∃ kept, Chosen ws kept ∧ Means H (contents (entries kept)) := by
  obtain ⟨kept, hc, hr, rfl⟩ := h
  exact ⟨kept, hc, means_contents hr⟩

end Written

/-- The write that a command makes. -/
def Command.entry (db : Db) : Command → Option Entry
  | .put key value => some (key, ⟨db.write.nextSeq, .value value⟩)
  | .delete key => some (key, ⟨db.write.nextSeq, .tombstone⟩)
  | .flush => none

def Command.attempts (db : Db) (acked : Bool) (c : Command) : List Attempt :=
  (c.entry db).toList.map fun e => ⟨e, acked⟩

/-- The history with a write, if there is one. -/
def grow (H : History Bytes InternalValue) : Option Entry → History Bytes InternalValue
  | none => H
  | some e => H.add e.1 e.2

theorem Written.grow {ws : List Attempt} {H : History Bytes InternalValue} (h : Written ws H)
    {db : Db} (hlt : ∀ k v, H k v → v.seq < db.write.nextSeq) (c : Command) (acked : Bool) :
    Written (ws ++ c.attempts db acked) (grow H (c.entry db)) := by
  cases c with
  | put key value => exact h.concat hlt acked
  | delete key => exact h.concat hlt acked
  | flush =>
    show Written (ws ++ []) H
    rwa [List.append_nil]

theorem Written.cut {ws : List Attempt} {H : History Bytes InternalValue} (h : Written ws H)
    (db : Db) (c : Command) : Written (ws ++ c.attempts db false) H := by
  cases c with
  | put key value => exact h.skip _
  | delete key => exact h.skip _
  | flush =>
    show Written (ws ++ []) H
    rwa [List.append_nil]

section Hashed

variable [TableHashing] {cfg : Config} {may : Set Bool}

/-! ### One call -/

/-- **The handle between two calls**: it stands on the history, and no call is under way.
Whether the next table has a file already is in `may`. -/
structure Idle (cfg : Config) (may : Set Bool) (H : History Bytes InternalValue)
    (σ : Disk × Db) : Prop where
  sound : Sound cfg H σ
  idle : σ.2.write.inFlight = 0
  noFlush : σ.2.write.flushPending = false
  next : taken cfg.dir σ.1 σ.2.manifest.current.val ∈ may

/-- The command has a table to write. -/
def Command.WritesTable (cfg : Config) (db : Db) : Command → Prop
  | .put key value => (db.memtables.insertIfNewer key ⟨db.write.nextSeq, .value value⟩).isFull = true
  | .delete key => (db.memtables.insertIfNewer key ⟨db.write.nextSeq, .tombstone⟩).isFull = true
  | .flush => HasWork cfg db

/-- What a command needs: nothing it narrows loses a bit, its record fits a frame, and the
sequence numbers and the table ids do not run out. -/
structure Fits (cfg : Config) (fs : SimFs) (db : Db) (c : Command) : Prop where
  lossless : SimFs.Exact (c.program cfg) fs db
  room : Room cfg db
  record : Loggable (c.entry db).toList

instance (cfg : Config) (fs : SimFs) (db : Db) (c : Command) : Decidable (Fits cfg fs db c) :=
  have : Decidable (Room cfg db) := inferInstanceAs (Decidable (_ < _))
  decidable_of_iff (SimFs.Exact (c.program cfg) fs db ∧ Room cfg db ∧ Loggable (c.entry db).toList)
    ⟨fun ⟨h1, h2, h3⟩ => ⟨h1, h2, h3⟩, fun h => ⟨h.lossless, h.room, h.record⟩⟩

variable {H : History Bytes InternalValue} {d : Disk} {db : Db}

theorem Sound.claimed {σ : Disk × Db} (h : Sound cfg H σ) :
    ∀ k v, H k v → v.seq < σ.2.write.nextSeq := by
  obtain ⟨A, since, L, T, rfl, hst⟩ := h
  exact hst.claimed

/-- **A command that returns is done**; one that is cut short is done or not.  It fails
exactly if it has a table to write and the next table has a file already, and is done then
too. -/
theorem wpE_program (h : Idle cfg may H (d, db)) {c : Command} (hroom : Room cfg db)
    (hrec : Loggable (c.entry db).toList) :
    wpE (Disk.sem Faults.none) True True
      (fun σ => Safe cfg (fun H' => H' = H ∨ H' = grow H (c.entry db)) σ.1) (c.program cfg)
      (fun _ σ => ¬ (taken cfg.dir d db.manifest.current.val = true ∧ c.WritesTable cfg db) ∧
        Idle cfg may (grow H (c.entry db)) σ)
      (fun _ σ => (taken cfg.dir d db.manifest.current.val = true ∧ c.WritesTable cfg db) ∧
        Idle cfg may (grow H (c.entry db)) σ) (d, db) := by
  have hmay : ∀ {b : Bool}, b = taken cfg.dir d db.manifest.current.val → b ∈ may := fun hb =>
    hb ▸ h.next
  have hwrite : ∀ key kind, Loggable [(key, ⟨db.write.nextSeq, kind⟩)] →
      wpE (Disk.sem Faults.none) True True
        (fun σ => Safe cfg (With H (key, ⟨db.write.nextSeq, kind⟩)) σ.1) (writeKind cfg key kind)
        (fun _ σ => ¬ (taken cfg.dir d db.manifest.current.val = true ∧
            (db.memtables.insertIfNewer key ⟨db.write.nextSeq, kind⟩).isFull = true) ∧
          Idle cfg may (H.add key ⟨db.write.nextSeq, kind⟩) σ)
        (fun _ σ => (taken cfg.dir d db.manifest.current.val = true ∧
            (db.memtables.insertIfNewer key ⟨db.write.nextSeq, kind⟩).isFull = true) ∧
          Idle cfg may (H.add key ⟨db.write.nextSeq, kind⟩) σ) (d, db) := by
    intro key kind hlog
    obtain ⟨hseq, hlen⟩ := hlog _ List.mem_cons_self
    refine wpE_writeKind_sound h.sound h.idle h.noFlush hroom hseq hlen
      (fun σ hσ hw hsame hnot => ⟨fun ⟨hfile, hfull⟩ => ?_, hσ, by rw [hw], by rw [hw], hmay hsame⟩)
      fun hfile hfull err σ hσ hw hstays =>
        ⟨⟨hfile, hfull⟩, hσ, by rw [hw], by rw [hw], hmay (hstays.trans hfile.symm)⟩
    rw [hnot hfile] at hfull
    cases hfull
  cases c with
  | put key value => exact hwrite key _ hrec
  | delete key => exact hwrite key _ hrec
  | flush =>
    have hflush := wpE_flushLocked_sound (e := Faults.none) h.sound h.idle hroom
      (fun ha => absurd ha Faults.not_any_none)
      (Q := fun _ σ => ¬ (taken cfg.dir d db.manifest.current.val = true ∧ HasWork cfg db) ∧
        Idle cfg may H σ)
      (E := fun _ σ => (taken cfg.dir d db.manifest.current.val = true ∧ HasWork cfg db) ∧
        Idle cfg may H σ)
      (fun σ hσ hw hsame hnot => ⟨fun ⟨hfile, hwork⟩ => hnot hfile hwork, hσ,
        by rw [hw]; exact h.idle, by rw [hw]; rfl, hmay hsame⟩)
      fun hfile hwork err σ hσ hw hstays => ⟨⟨hfile, hwork⟩, hσ, by rw [hw]; exact h.idle,
        by rw [hw]; rfl, hmay (hstays.trans hfile.symm)⟩
    exact wpE_mono hflush (fun σ hσ => hσ.safe.mono fun _ he => Or.inl he) (fun _ _ _ hq => hq)
      fun _ _ _ hq => hq

/-! ### Reading -/

/-- The handle after a read. -/
theorem Idle.warmed {A : History Bytes InternalValue} {since : List Entry} {L : Wal.Layout}
    {T : Contents} {db' : Db} (h : Idle cfg may (A ⊔ History.ofList since) (d, db))
    (hst : Stands cfg A since L T (d, db)) (hw : Warmed cfg d T db db') :
    Idle cfg may (A ⊔ History.ofList since) (d, db') := by
  have hcur : db'.manifest.current = db.manifest.current := (List.cons.inj hw.versions).1
  refine ⟨⟨A, since, L, T, rfl, hst.warmed hw⟩, ?_, ?_, ?_⟩
  · rw [hw.write]
    exact h.idle
  · rw [hw.write]
    exact h.noFlush
  · rw [hcur]
    exact h.next

/-- **A read changes nothing but the cache.** -/
theorem wpE_get_idle (h : Idle cfg may H (d, db)) (key : Bytes) :
    wpE (Disk.sem Faults.none) False False (fun _ => True) (Db.get cfg key)
      (fun _ σ => Idle cfg may H σ) (fun _ _ => False) (d, db) := by
  obtain ⟨A, since, L, T, rfl, hst⟩ := h.sound
  exact wpE_get_reads (Shelf.mem hst.shelf) fun db' hw => h.warmed hst hw

theorem wpE_scan_idle (h : Idle cfg may H (d, db)) {range : KeyRange}
    (hrange : range.panics = false) :
    wpE (Disk.sem Faults.none) False False (fun _ => True) (Db.scan cfg range)
      (fun _ σ => Idle cfg may H σ) (fun _ _ => False) (d, db) := by
  obtain ⟨A, since, L, T, rfl, hst⟩ := h.sound
  exact wpE_scan_reads (Shelf.mem hst.shelf) hrange fun db' _ hw _ _ => h.warmed hst hw

end Hashed

end AccretionDb.Db
