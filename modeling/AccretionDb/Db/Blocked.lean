import AccretionDb.Db.Survey

/-! # When a command fails

A table is written under the next id, and that id is taken when the version with the table
is installed.  A power loss in between can leave the file of a merge that put out nothing.
Then it is in the way: no call removes it, and every command that has a table to write
fails, in this session and in those that follow (`returns_ok_iff`).  The write of such a
command is done nevertheless.
-/

namespace AccretionDb.Db

open CrashLogic

/-- What a command makes of the map. -/
def Command.effect : Command → (Bytes → Option Bytes) → Bytes → Option Bytes
  | .put key value, m => Function.update m key (some value)
  | .delete key, m => Function.update m key none
  | .flush, m => m

theorem means_grow {H : History Bytes InternalValue} {m : Bytes → Option Bytes} (h : Means H m)
    {db : Db} (hlt : ∀ k v, H k v → v.seq < db.write.nextSeq) (c : Command) :
    Means (Db.grow H (c.entry db)) (c.effect m) := by
  cases c with
  | put key value => exact CrashLogic.Means.add (v := ⟨_, .value value⟩) h hlt
  | delete key => exact CrashLogic.Means.add (v := ⟨_, .tombstone⟩) h hlt
  | flush => exact h

/-- **The next table has a file already.** -/
def Blocked (cfg : Config) (fs : SimFs) (db : Db) : Prop :=
  (fs.contents (tablePath cfg.dir db.manifest.current.val.nextTableId)).isSome = true

theorem blocked_iff {cfg : Config} {fs : SimFs} {db : Db} (ht : fs.Tidy) :
    Blocked cfg fs db ↔ taken cfg.dir fs.disk db.manifest.current.val = true := by
  rw [Blocked, ht.contents, Option.isSome_map, taken]

namespace World

section Hashed

variable [TableHashing] {cfg : Config} {may : Set Bool} {w w' : World}

theorem Consistent.run (h : Consistent cfg may w)
    (hrun : Relation.ReflTransGen (Step cfg (Fits cfg)) w w') : Consistent cfg may w' := by
  induction hrun with
  | refl => exact h
  | tail _ hstep ih => exact hstep.consistent ih

/-- Whether a file is in the way stays as it is. -/
theorem Consistent.exact (h : Consistent cfg may w) {db : Db} (hdb : w.db = some db) :
    Consistent cfg {taken cfg.dir w.fs.disk db.manifest.current.val} w := by
  refine ⟨h.tidy, ?_⟩
  have hh := h.holds
  rw [Holds, hdb] at hh ⊢
  obtain ⟨H, hH, hq⟩ := hh
  exact ⟨H, hH, hq.sound, hq.idle, hq.noFlush, Set.mem_singleton _⟩

/-- **When a command returns `Ok`.**  However often the power went before: from now on, as
long as it stays, a command fails exactly if it has a table to write and the file of the
next table was there at the start.  Whatever it returns, it is done. -/
theorem returns_ok_iff {db db' db'' : Db} {fs' : SimFs} {c : Command} {r : Except DbError Unit}
    (h : Visited cfg w) (hdb : w.db = some db)
    (hrun : Relation.ReflTransGen (Step cfg (Fits cfg)) w w') (hdb' : w'.db = some db')
    (hok : Fits cfg w'.fs db' c) (hexec : w'.fs.exec (c.program cfg) db' = some (r, fs', db'')) :
    (r.isOk = true ↔ ¬ (Blocked cfg w.fs db ∧ c.WritesTable cfg db')) ∧
      ∃ m, Answers cfg w'.fs db' m ∧ Answers cfg fs' db'' (c.effect m) := by
  have hcons := (h.consistent.exact hdb).run hrun
  obtain ⟨fs₁, db₁, ws⟩ := w'
  obtain rfl : db₁ = some db' := hdb'
  obtain ⟨H, hH, hq⟩ := hcons.holds
  have hsame : taken cfg.dir fs₁.disk db'.manifest.current.val =
      taken cfg.dir w.fs.disk db.manifest.current.val := hq.next
  refine ⟨?_, ?_⟩
  · rw [hcons.isOk_iff hok hexec, blocked_iff h.consistent.tidy, hsame]
  · obtain ⟨kept, -, hm⟩ := hH.means
    obtain ⟨ht', -, hr⟩ := SimFs.exec_exact hcons.tidy (wpE_program hq hok.room hok.record)
      hok.lossless hexec
    have hafter : Sound cfg (grow H (c.entry db')) (fs'.disk, db'') := by
      cases r with
      | ok _ => exact hr.2.sound
      | error _ => exact hr.2.sound
    exact ⟨_, hq.sound.answers hcons.tidy hm, hafter.answers ht' (means_grow hm hq.sound.claimed c)⟩

end Hashed

attribute [local instance] TableHashing.emptyKey

/-- Two keys are put, flushed and deleted again, and the power goes in the flush of the
tombstones, behind the installation of the merge that puts out nothing. -/
def leaveFile : List Event :=
  [.call .open, .call (.command (.put [1] [10])), .call (.command (.put [2] [20])),
    .call (.command .flush), .call (.command (.delete [1])), .call (.command (.delete [2])),
    .cutCommand .flush 55, .call .open]

/-- **The file of the merge is in the way.**  The database opens, a put succeeds, and the
flush that has to write a table fails; the put is there before and after. -/
theorem returns_ok_iff_demo : ∃ w db w' db' err fs' db'' m, Visited eagerConfig w ∧
    w.db = some db ∧ Relation.ReflTransGen (Step eagerConfig (Fits eagerConfig)) w w' ∧
    w'.db = some db' ∧ w'.writes.map Attempt.acked = [true, true, true, true, true] ∧
    w'.fs.exec (Command.program eagerConfig .flush) db' = some (.error err, fs', db'') ∧
    (Blocked eagerConfig w.fs db ∧ Command.WritesTable eagerConfig db' .flush) ∧
    Answers eagerConfig w'.fs db' m ∧ Answers eagerConfig fs' db'' m := by
  have hend : ((playAll eagerConfig leaveFile).bind fun w => w.db.bind fun _ =>
      ((Request.command (.put [3] [30])).next eagerConfig w).bind fun w' => w'.db.bind fun db' =>
        (w'.fs.exec (Command.program eagerConfig .flush) db').map fun x =>
          (w'.writes.map Attempt.acked, decide (Fits eagerConfig w'.fs db' .flush), x.1.isOk)) =
      some ([true, true, true, true, true], true, false) := by decide +kernel
  obtain ⟨w, hw, hend⟩ := Option.bind_eq_some_iff.mp hend
  obtain ⟨db, hdb, hend⟩ := Option.bind_eq_some_iff.mp hend
  obtain ⟨w', hput, hend⟩ := Option.bind_eq_some_iff.mp hend
  obtain ⟨db', hdb', hend⟩ := Option.bind_eq_some_iff.mp hend
  obtain ⟨⟨r, fs', db''⟩, hflush, hend⟩ := Option.map_eq_some_iff.mp hend
  simp only [Prod.mk.injEq] at hend
  obtain ⟨hacked, hok, hr⟩ := hend
  cases r with
  | ok u => cases hr
  | error err =>
    have hv : Visited eagerConfig w := Or.inr ⟨rfl, survivable_of_playAll rfl hw⟩
    have hrun := Relation.ReflTransGen.single (Request.step hput)
    obtain ⟨hiff, m, hbefore, hafter⟩ :=
      returns_ok_iff hv hdb hrun hdb' (of_decide_eq_true hok) hflush
    refine ⟨w, db, w', db', err, fs', db'', m, hv, hdb, hrun, hdb', hacked, hflush, ?_, hbefore,
      hafter⟩
    by_contra hno
    exact Bool.false_ne_true (hiff.mpr hno)

end World

end AccretionDb.Db
