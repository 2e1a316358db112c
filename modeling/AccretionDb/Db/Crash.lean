import AccretionDb.Db.Client
import AccretionDb.Db.Recover
import AccretionDb.Wal.Crash

/-! # Runs with power losses

`World` is the simulator, the open handle if there is one, and the writes that the client
called.  A `Step` is one call that returns, and a `Loss` is that or a power loss, which may
cut a call after any storage operation, also the opening of the database.  In a run of steps
the database is a sorted map (`refines_map`), and in a durable mode no power loss takes an
acknowledged write away (`nothing_acked_lost`).
-/

namespace AccretionDb.Db

open CrashLogic

/-! ### Runs -/

/-- The simulator, the handle if there is one, and the writes that were called. -/
structure World where
  fs : SimFs
  db : Option Db
  writes : List Attempt

namespace World

/-- A fresh simulator; the stream is the generator's, which picks the tears. -/
def start (rng : Nat → Nat) : World := ⟨.new rng, none, []⟩

section Hashed

variable [TableHashing] {cfg : Config} {may : Set Bool}

/-- One call of the client that returns.  `ok` says which commands it gives, and where. -/
inductive Step (cfg : Config) (ok : SimFs → Db → Command → Prop) : World → World → Prop
  | opened {fs fs' : SimFs} {ws : List Attempt} {db : Db}
      (h : fs.exec (openOn cfg) () = some (.ok db, fs', ())) :
      Step cfg ok ⟨fs, none, ws⟩ ⟨fs', some db, ws⟩
  | commanded {fs fs' : SimFs} {ws : List Attempt} {db db' : Db} {c : Command}
      {r : Except DbError Unit} (hok : ok fs db c)
      (h : fs.exec (c.program cfg) db = some (r, fs', db')) :
      Step cfg ok ⟨fs, some db, ws⟩ ⟨fs', some db', ws ++ c.attempts db r.isOk⟩
  | got {fs fs' : SimFs} {ws : List Attempt} {db db' : Db} {key : Bytes}
      {r : Except DbError (Option Bytes)}
      (h : fs.exec (Db.get cfg key) db = some (r, fs', db')) :
      Step cfg ok ⟨fs, some db, ws⟩ ⟨fs', some db', ws⟩
  | scanned {fs fs' : SimFs} {ws : List Attempt} {db db' : Db} {range : KeyRange}
      {r : Except DbError (List (Bytes × Bytes))} (hrange : range.panics = false)
      (h : fs.exec (Db.scan cfg range) db = some (r, fs', db')) :
      Step cfg ok ⟨fs, some db, ws⟩ ⟨fs', some db', ws⟩
  | closed {fs : SimFs} {ws : List Attempt} {db : Db} :
      Step cfg ok ⟨fs, some db, ws⟩ ⟨fs, none, ws⟩

/-- One call, or a power loss, which may cut a call after any storage operation.  What is
left of a log that was being written must not pass for a frame. -/
inductive Loss (cfg : Config) (ok : SimFs → Db → Command → Prop) : World → World → Prop
  | step {w w' : World} (h : Step cfg ok w w') : Loss cfg ok w w'
  | openCut {fs fs' : SimFs} {ws : List Attempt} (h : SimFs.Stops (openOn cfg) fs () fs' ())
      (hcrc : Wal.World.CrcCatches cfg.wal fs') :
      Loss cfg ok ⟨fs, none, ws⟩ ⟨fs'.crash, none, ws⟩
  | commandCut {fs fs' : SimFs} {ws : List Attempt} {db db' : Db} {c : Command}
      (hok : ok fs db c) (h : SimFs.Stops (c.program cfg) fs db fs' db')
      (hcrc : Wal.World.CrcCatches cfg.wal fs') :
      Loss cfg ok ⟨fs, some db, ws⟩ ⟨fs'.crash, none, ws ++ c.attempts db false⟩
  | crashed {fs : SimFs} {db : Option Db} {ws : List Attempt} :
      Loss cfg ok ⟨fs, db, ws⟩ ⟨fs.crash, none, ws⟩

/-- What is in the directory is a history of chosen attempts. -/
def Holds (cfg : Config) (may : Set Bool) (w : World) : Prop :=
  match w.db with
  | some db => ∃ H, Written w.writes H ∧ Idle cfg may H (w.fs.disk, db)
  | none => Rests cfg may (Written w.writes) w.fs.disk

structure Consistent (cfg : Config) (may : Set Bool) (w : World) : Prop where
  tidy : w.fs.Tidy
  holds : w.Holds cfg may

theorem start_consistent (rng : Nat → Nat) (hmay : false ∈ may) : Consistent cfg may (start rng) :=
  ⟨SimFs.new_tidy rng, .new (fun _ => rfl) .nil hmay⟩

/-- What opening finds. -/
theorem wpE_opened {w : World} (h : w.Holds cfg may) (hw : w.db = none) :
    wpE (Disk.sem Faults.none) False False (fun σ : Disk × Unit => Safe cfg (Written w.writes) σ.1)
      (openOn cfg) (fun db σ => ∃ H, Written w.writes H ∧ Idle cfg may H (σ.1, db))
      (fun _ _ => False) (w.fs.disk, ()) := by
  rw [Holds, hw] at h
  exact wpE_openOn_rests h fun H db d' hH hs hidle hopen hnext => ⟨H, hH, hs, hidle, hopen, hnext⟩

/-- Between two calls the directory can be left as it is. -/
theorem Holds.rests {w : World} (h : w.Holds cfg may) :
    Rests cfg may (Written w.writes) w.fs.disk := by
  obtain ⟨fs, db, ws⟩ := w
  cases db with
  | some db =>
    obtain ⟨H, hH, hq⟩ := h
    exact hq.sound.rests hH hq.next
  | none => exact h

/-- **One call preserves consistency.** -/
theorem Step.consistent {w w' : World} (hstep : Step cfg (Fits cfg) w w')
    (h : Consistent cfg may w) : Consistent cfg may w' := by
  obtain ⟨ht, hh⟩ := h
  cases hstep with
  | @opened fs fs' ws db hrun =>
    obtain ⟨ht', -, hq⟩ := SimFs.exec_spec ht (wpE_opened hh rfl) hrun
    exact ⟨ht', hq⟩
  | @commanded fs fs' ws db db' c r hok hrun =>
    obtain ⟨H, hH, hq⟩ := hh
    obtain ⟨ht', -, hr⟩ := SimFs.exec_exact ht (wpE_program hq hok.room hok.record) hok.lossless hrun
    have hnext := hH.grow hq.sound.claimed c r.isOk
    cases r with
    | ok _ => exact ⟨ht', _, hnext, hr.2⟩
    | error err => exact ⟨ht', _, hnext, hr.2⟩
  | @got fs fs' ws db db' key r hrun =>
    obtain ⟨H, hH, hq⟩ := hh
    obtain ⟨ht', -, hr⟩ := SimFs.exec_spec ht (wpE_get_idle hq key) hrun
    cases r with
    | ok _ => exact ⟨ht', H, hH, hr⟩
    | error err => exact hr.elim
  | @scanned fs fs' ws db db' range r hrange hrun =>
    obtain ⟨H, hH, hq⟩ := hh
    obtain ⟨ht', -, hr⟩ := SimFs.exec_spec ht (wpE_scan_idle hq hrange) hrun
    cases r with
    | ok _ => exact ⟨ht', H, hH, hr⟩
    | error err => exact hr.elim
  | closed => exact ⟨ht, hh.rests⟩

/-- **A command returns `Ok` exactly if** it has no table to write or the next one has no
file yet. -/
theorem Consistent.isOk_iff {fs fs' : SimFs} {ws : List Attempt} {db db' : Db} {c : Command}
    {r : Except DbError Unit} (h : Consistent cfg may ⟨fs, some db, ws⟩) (hok : Fits cfg fs db c)
    (hrun : fs.exec (c.program cfg) db = some (r, fs', db')) : r.isOk = true ↔
      ¬ (taken cfg.dir fs.disk db.manifest.current.val = true ∧ c.WritesTable cfg db) := by
  obtain ⟨H, hH, hq⟩ := h.holds
  obtain ⟨-, -, hr⟩ := SimFs.exec_exact h.tidy (wpE_program hq hok.room hok.record) hok.lossless hrun
  cases r with
  | ok _ => exact iff_of_true rfl hr.1
  | error err => exact iff_of_false Bool.false_ne_true (not_not.mpr hr.1)

/-- Where no file is in the way every write is acknowledged. -/
theorem Step.acked {w w' : World} (hstep : Step cfg (Fits cfg) w w')
    (h : Consistent cfg {false} w) (ha : ∀ a ∈ w.writes, a.acked = true) :
    ∀ a ∈ w'.writes, a.acked = true := by
  cases hstep with
  | opened _ => exact ha
  | @commanded fs fs' ws db db' c r hok hrun =>
    obtain ⟨H, -, hq⟩ := h.holds
    have hr : r.isOk = true := (h.isOk_iff hok hrun).mpr fun ⟨hfile, _⟩ => by
      rw [Set.mem_singleton_iff.mp hq.next] at hfile
      cases hfile
    intro a hm
    rcases List.mem_append.mp hm with hm | hm
    · exact ha a hm
    · obtain ⟨e, -, rfl⟩ := List.mem_map.mp hm
      exact hr
  | got _ => exact ha
  | scanned _ _ => exact ha
  | closed => exact ha

/-- What a power loss leaves of a directory that is safe. -/
theorem consistent_crash {fs : SimFs} {ws : List Attempt} (ht : fs.Tidy)
    (hdur : cfg.options.durability.isDurable) (hcrc : Wal.World.CrcCatches cfg.wal fs)
    (h : Safe cfg (Written ws) fs.disk) : Consistent cfg Set.univ ⟨fs.crash, none, ws⟩ := by
  have hr : ∀ id g b, (fs.disk (Wal.segmentPath cfg.dir id)).durable = some g →
      fs.crash.disk (Wal.segmentPath cfg.dir id) = .kept b →
      Wal.RejectsDamage g.content b.content :=
    fun id g b hg hb => (hcrc id).of_disk ht hg hb
  exact ⟨SimFs.crash_tidy ht, h.crash hdur (SimFs.crash_refines ht) hr⟩

/-- **So does a power loss**, in a durable mode. -/
theorem Loss.consistent {w w' : World} (hloss : Loss cfg (Fits cfg) w w')
    (hdur : cfg.options.durability.isDurable) (h : Consistent cfg Set.univ w) :
    Consistent cfg Set.univ w' := by
  cases hloss with
  | step hstep => exact hstep.consistent h
  | @openCut fs fs' ws hrun hcrc =>
    obtain ⟨ht', hsafe⟩ := SimFs.stops_spec h.tidy (wpE_opened h.holds rfl) hrun
    exact consistent_crash ht' hdur hcrc hsafe
  | @commandCut fs fs' ws db db' c hok hrun hcrc =>
    obtain ⟨H, hH, hq⟩ := h.holds
    obtain ⟨ht', hsafe⟩ := SimFs.stops_exact h.tidy (wpE_program hq hok.room hok.record) hok.lossless
      hrun
    refine consistent_crash ht' hdur hcrc (hsafe.mono ?_)
    rintro _ (rfl | rfl)
    · exact hH.cut db c
    · exact hH.grow hq.sound.claimed c false
  | @crashed fs db ws =>
    exact ⟨SimFs.crash_tidy h.tidy, h.holds.rests.crash hdur (SimFs.crash_refines h.tidy)⟩

/-- The worlds of a client that suffers no power loss. -/
def Reachable (cfg : Config) (ok : SimFs → Db → Command → Prop) (w : World) : Prop :=
  ∃ rng, Relation.ReflTransGen (Step cfg ok) (start rng) w

/-- The worlds of one that does. -/
def Survivable (cfg : Config) (ok : SimFs → Db → Command → Prop) (w : World) : Prop :=
  ∃ rng, Relation.ReflTransGen (Loss cfg ok) (start rng) w

theorem Reachable.consistent {w : World} (h : Reachable cfg (Fits cfg) w) :
    Consistent cfg {false} w ∧ ∀ a ∈ w.writes, a.acked = true := by
  obtain ⟨rng, hrun⟩ := h
  induction hrun with
  | refl => exact ⟨start_consistent rng rfl, fun _ ha => absurd ha List.not_mem_nil⟩
  | tail _ hstep ih => exact ⟨hstep.consistent ih.1, hstep.acked ih.1 ih.2⟩

theorem Survivable.consistent {w : World} (h : Survivable cfg (Fits cfg) w)
    (hdur : cfg.options.durability.isDurable) : Consistent cfg Set.univ w := by
  obtain ⟨rng, hrun⟩ := h
  induction hrun with
  | refl => exact start_consistent rng (Set.mem_univ _)
  | tail _ hloss ih => exact hloss.consistent hdur ih

/-! ### Runs that are computed -/

/-- What a client does in a run. -/
inductive Request
  | «open»
  | command (c : Command)
  | get (key : Bytes)
  | scan (range : KeyRange)
  | close

/-- What happens in a run: a call, or a power loss between two calls or behind some
effects of one. -/
inductive Event
  | call (r : Request)
  | crash
  | cutOpen (n : Nat)
  | cutCommand (c : Command) (n : Nat)

/-- The world behind a call that returns and in which nothing overflows. -/
def Request.next (cfg : Config) : Request → World → Option World
  | .open, ⟨fs, none, ws⟩ =>
    match fs.exec (openOn cfg) () with
    | some (.ok db, fs', ()) => some ⟨fs', some db, ws⟩
    | _ => none
  | .command c, ⟨fs, some db, ws⟩ =>
    if Fits cfg fs db c then
      match fs.exec (c.program cfg) db with
      | some (r, fs', db') => some ⟨fs', some db', ws ++ c.attempts db r.isOk⟩
      | none => none
    else none
  | .get key, ⟨fs, some db, ws⟩ =>
    match fs.exec (Db.get cfg key) db with
    | some (_, fs', db') => some ⟨fs', some db', ws⟩
    | none => none
  | .scan range, ⟨fs, some db, ws⟩ =>
    if range.panics then none
    else
      match fs.exec (Db.scan cfg range) db with
      | some (_, fs', db') => some ⟨fs', some db', ws⟩
      | none => none
  | .close, ⟨fs, some _, ws⟩ => some ⟨fs, none, ws⟩
  | _, _ => none

/-- The world behind an event; a power loss must cut what is torn and turn no bit. -/
def Event.next (cfg : Config) : Event → World → Option World
  | .call r, w => r.next cfg w
  | .crash, ⟨fs, _, ws⟩ => some ⟨fs.crash, none, ws⟩
  | .cutOpen n, ⟨fs, none, ws⟩ =>
    let fs' := (SimFs.cutAt (openOn cfg) n fs ()).1
    if fs'.OnlyCuts then some ⟨fs'.crash, none, ws⟩ else none
  | .cutCommand c n, ⟨fs, some db, ws⟩ =>
    let fs' := (SimFs.cutAt (c.program cfg) n fs db).1
    if Fits cfg fs db c ∧ fs'.OnlyCuts then some ⟨fs'.crash, none, ws ++ c.attempts db false⟩
    else none
  | _, _ => none

theorem Request.step {r : Request} {w w' : World} (h : r.next cfg w = some w') :
    Step cfg (Fits cfg) w w' := by
  obtain ⟨fs, db, ws⟩ := w
  cases r with
  | «open» =>
    cases db with
    | some db => cases h
    | none =>
      rw [Request.next] at h
      split at h
      · next db fs' he =>
        cases h
        exact .opened he
      · cases h
  | command c =>
    cases db with
    | none => cases h
    | some db =>
      rw [Request.next] at h
      split at h
      · next hok =>
        split at h
        · next r fs' db' he =>
          cases h
          exact .commanded hok he
        · cases h
      · cases h
  | get key =>
    cases db with
    | none => cases h
    | some db =>
      rw [Request.next] at h
      split at h
      · next r fs' db' he =>
        cases h
        exact .got he
      · cases h
  | scan range =>
    cases db with
    | none => cases h
    | some db =>
      rw [Request.next] at h
      split at h
      · cases h
      · next hrange =>
        split at h
        · next r fs' db' he =>
          cases h
          exact .scanned (Bool.eq_false_iff.mpr hrange) he
        · cases h
  | close =>
    cases db with
    | none => cases h
    | some db =>
      cases h
      exact .closed

theorem Event.loss {e : Event} {w w' : World} (hw : Consistent cfg may w)
    (h : e.next cfg w = some w') : Loss cfg (Fits cfg) w w' := by
  cases e with
  | call r => exact .step (Request.step h)
  | crash =>
    cases h
    exact .crashed
  | cutOpen n =>
    obtain ⟨fs, db, ws⟩ := w
    cases db with
    | some db => cases h
    | none =>
      rw [Event.next] at h
      split at h
      · next hcuts =>
        cases h
        have hstop := SimFs.stops_cutAt (openOn cfg) n fs ()
        obtain ⟨ht, -⟩ := SimFs.stops_spec hw.tidy (wpE_opened hw.holds rfl) hstop
        exact .openCut hstop (Wal.World.crcCatches_of_onlyCuts ht hcuts)
      · cases h
  | cutCommand c n =>
    obtain ⟨fs, db, ws⟩ := w
    cases db with
    | none => cases h
    | some db =>
      rw [Event.next] at h
      split at h
      · next hboth =>
        obtain ⟨hok, hcuts⟩ := hboth
        cases h
        have hstop := SimFs.stops_cutAt (c.program cfg) n fs db
        obtain ⟨H, -, hq⟩ := hw.holds
        obtain ⟨ht, -⟩ := SimFs.stops_exact hw.tidy (wpE_program hq hok.room hok.record) hok.lossless
          hstop
        exact .commandCut hok hstop (Wal.World.crcCatches_of_onlyCuts ht hcuts)
      · cases h

/-- The world behind some calls of a client that begins with an empty directory. -/
def callAll (cfg : Config) (rs : List Request) : Option World :=
  rs.foldlM (fun w r => r.next cfg w) (start fun _ => 0)

/-- The world behind some events; the stream picks the tears. -/
def playWith (cfg : Config) (rng : Nat → Nat) (es : List Event) : Option World :=
  es.foldlM (fun w e => e.next cfg w) (start rng)

/-- The world behind some events, where a power loss leaves nothing unsynced. -/
def playAll (cfg : Config) (es : List Event) : Option World := playWith cfg (fun _ => 0) es

theorem reachable_of_callAll {rs : List Request} {w : World} (h : callAll cfg rs = some w) :
    Reachable cfg (Fits cfg) w :=
  foldlM_keeps (fun ⟨rng, hrun⟩ hc => ⟨rng, hrun.tail (Request.step hc)⟩) ⟨_, .refl⟩ h

theorem survivable_of_playWith (hdur : cfg.options.durability.isDurable) {rng : Nat → Nat}
    {es : List Event} {w : World} (h : playWith cfg rng es = some w) :
    Survivable cfg (Fits cfg) w :=
  foldlM_keeps (P := Survivable cfg (Fits cfg)) (fun hw he =>
    have hloss := Event.loss (hw.consistent hdur) he
    hw.imp fun _ hrun => hrun.tail hloss) ⟨_, .refl⟩ h

theorem survivable_of_playAll (hdur : cfg.options.durability.isDurable) {es : List Event} {w : World}
    (h : playAll cfg es = some w) : Survivable cfg (Fits cfg) w := survivable_of_playWith hdur h

/-- **The engine is a sorted map.**  In every run without a power loss every write is
acknowledged, and the handle answers like the map that the writes leave. -/
theorem refines_map {w : World} (h : Reachable cfg (Fits cfg) w) {db : Db} (hdb : w.db = some db) :
    (∀ a ∈ w.writes, a.acked = true) ∧ Answers cfg w.fs db (contents (entries w.writes)) := by
  obtain ⟨⟨ht, hh⟩, hall⟩ := h.consistent
  rw [Holds, hdb] at hh
  obtain ⟨H, hH, hq⟩ := hh
  obtain ⟨kept, hc, hm⟩ := hH.means
  rw [hc.eq hall] at hm
  exact ⟨hall, hq.sound.answers ht hm⟩

/-- Opening the directory answers, and the handle answers like the map that some of the
writes leave, among them all that were acknowledged. -/
def Recovers (cfg : Config) (w : World) : Prop :=
  ∃ db fs', w.fs.exec (openOn cfg) () = some (.ok db, fs', ()) ∧
    ∃ kept, Chosen w.writes kept ∧ Answers cfg fs' db (contents (entries kept))

theorem Consistent.recovers {w : World} (h : Consistent cfg may w) (hw : w.db = none) :
    Recovers cfg w := by
  obtain ⟨db, fs', _, hrun, ht', H, hH, hq⟩ := SimFs.exec_ok h.tidy (wpE_opened h.holds hw)
  obtain ⟨kept, hc, hm⟩ := hH.means
  exact ⟨db, fs', hrun, kept, hc, hq.sound.answers ht' hm⟩

/-- **No acknowledged write is lost.** -/
theorem nothing_acked_lost {w : World} (h : Survivable cfg (Fits cfg) w)
    (hdur : cfg.options.durability.isDurable) (hw : w.db = none) : Recovers cfg w :=
  (h.consistent hdur).recovers hw

end Hashed

attribute [local instance] TableHashing.emptyKey

/-- A merge takes two tables. -/
def eagerConfig : Config := ⟨[100], ⟨.always, 1024, 2⟩, 2⟩

/-- Two tables are written and merged, and a newer value is in memory. -/
def mergeTables : List Request :=
  [.open, .command (.put [1] [10]), .command (.put [2] [20, 21]), .command .flush,
    .command (.delete [1]), .command (.put [3] []), .command .flush, .command (.put [2] [22]),
    .get [2], .scan .full]

theorem exists_mergeTables : ∃ w db, Reachable eagerConfig (Fits eagerConfig) w ∧
    w.db = some db ∧ w.writes.length = 5 ∧
    db.manifest.current.val.tiers.map (·.map TableMeta.id) = [[], [3]] := by
  have hend : ((callAll eagerConfig mergeTables).bind fun w => w.db.map fun db =>
      (w.writes.length, db.manifest.current.val.tiers.map (·.map TableMeta.id))) =
      some (5, [[], [3]]) := by decide +kernel
  obtain ⟨w, hw, hend⟩ := Option.bind_eq_some_iff.mp hend
  obtain ⟨db, hdb, hend⟩ := Option.map_eq_some_iff.mp hend
  obtain ⟨hlen, htiers⟩ := Prod.mk.inj hend
  exact ⟨w, db, reachable_of_callAll hw, hdb, hlen, htiers⟩

theorem refines_map_demo : ∃ w db, Reachable eagerConfig (Fits eagerConfig) w ∧ w.db = some db ∧
    w.writes.length = 5 ∧ Answers eagerConfig w.fs db (contents (entries w.writes)) := by
  obtain ⟨w, db, hw, hdb, hlen, -⟩ := exists_mergeTables
  exact ⟨w, db, hw, hdb, hlen, (refines_map hw hdb).2⟩

/-- The power goes in the middle of a put that was not acknowledged, and again at the end,
behind a flush. -/
def cutAndCrash : List Event :=
  [.call .open, .call (.command (.put [1] [10])), .call (.command (.put [2] [20, 21])),
    .call (.command .flush), .call (.command (.delete [1])), .cutCommand (.put [3] []) 4,
    .cutOpen 3, .call .open, .call (.command (.put [2] [22])), .call (.command .flush),
    .call (.command (.put [1] [])), .crash]

theorem nothing_acked_lost_demo : ∃ w, Survivable eagerConfig (Fits eagerConfig) w ∧
    w.writes.map Attempt.acked = [true, true, true, false, true, true] ∧
    Recovers eagerConfig w := by
  have hend : (playAll eagerConfig cutAndCrash).map (fun w =>
      (w.writes.map Attempt.acked, w.db.isNone)) =
      some ([true, true, true, false, true, true], true) := by decide +kernel
  obtain ⟨w, hw, hend⟩ := Option.map_eq_some_iff.mp hend
  obtain ⟨hacked, hdb⟩ := Prod.mk.inj hend
  have hrun := survivable_of_playAll rfl hw
  exact ⟨w, hrun, hacked, nothing_acked_lost hrun rfl (Option.isNone_iff_eq_none.mp hdb)⟩

end World

end AccretionDb.Db
