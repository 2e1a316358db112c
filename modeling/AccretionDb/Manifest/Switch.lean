import AccretionDb.Manifest.Shelf

/-! # The switch from version to version

One client opens the manifest, writes tables and installs versions that refer to them,
while readers hold versions and drop them, and the power may go at any moment.  What
the directory holds is at every moment the version installed last, or, when the power
goes during an install, possibly the new one (`World.switch_atomic`).
-/

namespace AccretionDb.Manifest

open CrashLogic

/-- A table for `write_table`. -/
structure NewTable where
  id : Nat
  expectedKeys : Nat
  entries : List Entry

/-- The contents with those of new tables. -/
def contentsWith (T : Contents) (ts : List NewTable) : Contents :=
  ts.foldl (fun T t => Function.update T t.id t.entries) T

theorem contentsWith_of_not_mem {ts : List NewTable} {id : Nat}
    (h : id ∉ ts.map NewTable.id) : ∀ T : Contents, contentsWith T ts id = T id := by
  induction ts with
  | nil => exact fun _ => rfl
  | cons t ts ih =>
    intro T
    obtain ⟨hne, hno⟩ := not_or.mp fun hm => h (List.mem_cons.mpr hm)
    exact (ih hno _).trans (Function.update_of_ne hne ..)

theorem contentsWith_of_mem {ts : List NewTable} (hnd : (ts.map NewTable.id).Nodup)
    {t : NewTable} (ht : t ∈ ts) : ∀ T : Contents, contentsWith T ts t.id = t.entries := by
  induction ts with
  | nil => cases ht
  | cons u ts ih =>
    intro T
    obtain ⟨hno, hnd⟩ := List.nodup_cons.mp hnd
    rcases List.mem_cons.mp ht with rfl | ht
    · exact (contentsWith_of_not_mem hno _).trans (Function.update_self ..)
    · exact ih hnd ht _

section Programs

variable [TableHashing] {M : Type}

def writeTables (dir : Dir) : List NewTable → Io M CompactionError Unit
  | [] => pure ()
  | t :: ts => do
    let _ ← writeTable (tablePath dir t.id) t.id t.expectedKeys t.entries
    writeTables dir ts

/-- One link of the chain: the new tables, and the version that refers to them. -/
def extend (dir : Dir) (ts : List NewTable) (v : Version) : Io Manifest CompactionError Unit := do
  writeTables dir ts
  (install dir v).mapError .manifest

end Programs

section Specs

variable [TableHashing] {M : Type} {e : Faults} {strict H : Prop} {d : Disk} {m : M} {dir : Dir}

/-- Tables have been added, and none of them has a durable name. -/
def Grown (dir : Dir) (d d' : Disk) : Prop :=
  ∀ p, (d' p).durable = (d p).durable ∧
    ((d p).live.isSome ∨ (∀ id, p ≠ tablePath dir id) → d' p = d p)

omit [TableHashing] in
theorem Grown.refl (dir : Dir) (d : Disk) : Grown dir d d := fun _ => ⟨rfl, fun _ => rfl⟩

omit [TableHashing] in
theorem Grown.put {d' : Disk} (h : Grown dir d d') {id : Nat}
    (hp : (d' (tablePath dir id)).live = none) (b : Blob) :
    Grown dir d (d'.put (tablePath dir id) b) := by
  intro q
  refine ⟨(Disk.durable_put d' _ b q).trans (h q).1, fun hq => ?_⟩
  have hne : q ≠ tablePath dir id := by
    rintro rfl
    rcases hq with hsome | hno
    · rw [← (h _).2 (Or.inl hsome), hp] at hsome
      cases hsome
    · exact hno id rfl
  rw [Disk.put_of_ne hne]
  exact (h q).2 hq

/-- The stream is in order, and its numbers are words. -/
def NewTable.Sorted (t : NewTable) : Prop :=
  Ascending t.entries ∧ ∀ x ∈ t.entries, x.2.seq < 2 ^ 64

/-- No length of the table is narrowed. -/
def NewTable.Fits (t : NewTable) : Prop :=
  TableFits (writeSize t.expectedKeys) (tableEntries t.entries)

/-- **The new tables** are there, whole; an error leaves some of them. -/
theorem wpE_writeTables {C : Disk × M → Prop} {R : CompactionError → Disk × M → Prop}
    (hC : ∀ d', Grown dir d d' → C (d', m)) (herr : ∀ err d', Grown dir d d' → R err (d', m)) :
    ∀ (ts : List NewTable), (∀ t ∈ ts, t.Sorted ∧ (¬ strict → t.Fits)) →
      ∀ {d' : Disk} {Q : Unit → Disk × M → Prop}, Grown dir d d' →
      (∀ d'', Grown dir d d'' → (∀ p, (d' p).live.isSome → d'' p = d' p) →
        (ts.map NewTable.id).Nodup → (∀ t ∈ ts, (d' (tablePath dir t.id)).live = none) →
        (∀ t ∈ ts, t.entries ≠ [] → ∃ c, (d'' (tablePath dir t.id)).live = some ⟨c, []⟩ ∧
          Table c t.entries) → Q () (d'', m)) →
      wpE (Disk.sem e) strict H C (writeTables dir ts) Q R (d', m) := by
  intro ts
  induction ts with
  | nil =>
    intro _ d' Q hd hok
    refine wpE_pure.mpr ⟨hC d' hd, hok d' hd (fun _ _ => rfl) .nil ?_ ?_⟩ <;>
      exact fun t ht => absurd ht List.not_mem_nil
  | cons t ts ih =>
    intro hts d' Q hd hok
    obtain ⟨⟨⟨hsort, hseq⟩, hfit⟩, hts⟩ := List.forall_mem_cons.mp hts
    refine wpE_bind.mpr ?_
    cases hlive : (d' (tablePath dir t.id)).live with
    | some b =>
      exact wpE_writeTable_exists (by rw [hlive]; rfl) (hC d' hd) fun err => herr err d' hd
    | none =>
      -- the other tables go on from a disk with this one
      have hrest : ∀ b, (t.entries ≠ [] → b.tail = [] ∧ Table b.synced t.entries) →
          wpE (Disk.sem e) strict H C (writeTables dir ts) Q R
            (d'.put (tablePath dir t.id) b, m) := by
        intro b hb
        refine ih hts (hd.put hlive b) fun d'' hd'' hkeep hnd hnone htables => ?_
        have hself : d'' (tablePath dir t.id) = d'.put (tablePath dir t.id) b (tablePath dir t.id) :=
          hkeep _ (by rw [Disk.live_put]; rfl)
        have hne : ∀ {p}, (d' p).live.isSome → p ≠ tablePath dir t.id := by
          rintro p hp rfl
          rw [hlive] at hp
          cases hp
        have hfresh : ∀ u ∈ ts, u.id ≠ t.id := by
          intro u hu hid
          have := hnone u hu
          rw [hid, Disk.live_put] at this
          cases this
        refine hok d'' hd'' (fun p hp => ?_) (List.nodup_cons.mpr ⟨?_, hnd⟩) ?_ ?_
        · rw [hkeep p (by rw [Disk.put_of_ne (hne hp)]; exact hp), Disk.put_of_ne (hne hp)]
        · intro hm
          obtain ⟨u, hu, hid⟩ := List.mem_map.mp hm
          exact hfresh u hu hid
        · refine List.forall_mem_cons.mpr ⟨hlive, fun u hu => ?_⟩
          have := hnone u hu
          rwa [Disk.put_of_ne fun h => hfresh u hu (tablePath_inj h)] at this
        · refine List.forall_mem_cons.mpr ⟨fun hne => ?_, htables⟩
          obtain ⟨htail, htable⟩ := hb hne
          refine ⟨b.synced, ?_, htable⟩
          rw [hself, Disk.live_put, ← htail]
      have hput : ∀ b, C (d'.put (tablePath dir t.id) b, m) := fun b => hC _ (hd.put hlive b)
      cases hes : t.entries with
      | nil =>
        refine wpE_writeTable_nil hlive (fun hs => (hfit hs).bits) (hC d' hd) (hput _) ?_
          fun _ err => herr err d' hd
        exact hrest .empty fun hne => absurd hes hne
      | cons first rest =>
        rw [hes] at hsort hseq
        refine wpE_writeTable rfl hsort hseq hlive (fun hs => hes ▸ hfit hs) (hC d' hd) hput
          (fun hfile => ?_) (fun _ err => herr err d' hd) fun _ err f => herr err _ (hd.put hlive f)
        refine hrest _ fun _ => ⟨rfl, ?_⟩
        rw [hes]
        exact ⟨_, hfile, rfl⟩

end Specs

/-! ### Runs -/

/-- The simulator, the manifest if it is open, and what the client knows: the version
installed last, the one it was about to install when the power went, and what it gave to
the tables. -/
structure World where
  fs : SimFs
  manifest : Option Manifest
  installed : Version
  pending : Option Version
  contents : Contents

namespace World

/-- A fresh simulator; the stream is the generator's, which picks the tears. -/
def start (rng : Nat → Nat) : World := ⟨.new rng, none, .empty, none, fun _ => []⟩

section Hashed

variable [TableHashing]

/-- The next link of a chain whose current version is `v`: the tables are new, and the
version refers to nothing else. -/
structure Link (v : Version) (ts : List NewTable) (v' : Version) : Prop where
  words : v'.Words
  sorted : ∀ t ∈ ts, t.Sorted
  new : ∀ t ∈ ts, t.id ∉ v.referencedIds
  refers : ∀ id ∈ v'.referencedIds, id ∈ v.referencedIds ∨ ∃ t ∈ ts, t.id = id ∧ t.entries ≠ []

/-- One call of the client, a reader that holds or drops a version, or a power loss.
`ok` says which links the client makes. -/
inductive Step (dir : Dir) (ok : List NewTable → Version → Prop) : World → World → Prop
  | opened {fs fs' : SimFs} {v : Version} {pending : Option Version} {T : Contents}
      {m : Manifest} (h : fs.exec (Manifest.open dir) () = some (.ok m, fs', ())) :
      Step dir ok ⟨fs, none, v, pending, T⟩ ⟨fs', some m, m.current.val, none, T⟩
  | openCut {fs fs' : SimFs} {v : Version} {pending : Option Version} {T : Contents}
      (h : SimFs.Stops (Manifest.open dir) fs () fs' ()) :
      Step dir ok ⟨fs, none, v, pending, T⟩ ⟨fs'.crash, none, v, pending, T⟩
  | installed {fs fs' : SimFs} {v v' : Version} {pending : Option Version} {T : Contents}
      {m m' : Manifest} {ts : List NewTable} (hlink : Link v ts v') (hok : ok ts v')
      (h : fs.exec (extend dir ts v') m = some (.ok (), fs', m')) :
      Step dir ok ⟨fs, some m, v, pending, T⟩ ⟨fs', some m', v', pending, contentsWith T ts⟩
  | refused {fs fs' : SimFs} {v v' : Version} {pending : Option Version} {T : Contents}
      {m m' : Manifest} {ts : List NewTable} {err : CompactionError} (hlink : Link v ts v')
      (hok : ok ts v') (h : fs.exec (extend dir ts v') m = some (.error err, fs', m')) :
      Step dir ok ⟨fs, some m, v, pending, T⟩ ⟨fs', some m', v, pending, contentsWith T ts⟩
  | installCut {fs fs' : SimFs} {v v' : Version} {pending : Option Version} {T : Contents}
      {m m' : Manifest} {ts : List NewTable} (hlink : Link v ts v') (hok : ok ts v')
      (h : SimFs.Stops (extend dir ts v') fs m fs' m') :
      Step dir ok ⟨fs, some m, v, pending, T⟩ ⟨fs'.crash, none, v, some v', contentsWith T ts⟩
  | pinned {fs : SimFs} {v : Version} {pending : Option Version} {T : Contents} {m : Manifest} :
      Step dir ok ⟨fs, some m, v, pending, T⟩ ⟨fs, some m.pin, v, pending, T⟩
  | unpinned {fs : SimFs} {v : Version} {pending : Option Version} {T : Contents} {m : Manifest}
      (held : Arc Version) :
      Step dir ok ⟨fs, some m, v, pending, T⟩ ⟨fs, some (m.unpin held), v, pending, T⟩
  | closed {fs : SimFs} {v : Version} {pending : Option Version} {T : Contents} {m : Manifest} :
      Step dir ok ⟨fs, some m, v, pending, T⟩ ⟨fs, none, v, pending, T⟩
  | crashed {fs : SimFs} {manifest : Option Manifest} {v : Version} {pending : Option Version}
      {T : Contents} :
      Step dir ok ⟨fs, manifest, v, pending, T⟩ ⟨fs.crash, none, v, pending, T⟩

/-- The worlds a client that makes `ok` links can reach. -/
def Reachable (dir : Dir) (ok : List NewTable → Version → Prop) (w : World) : Prop :=
  ∃ rng, Relation.ReflTransGen (Step dir ok) (start rng) w

/-- The version was installed last, or was being installed when the power went. -/
def Found (w : World) (v : Version) : Prop := v = w.installed ∨ w.pending = some v

/-- Opening the manifest answers with a version that may be found, and every table it
refers to is there, whole and synced, and can be opened. -/
def Recovers (dir : Dir) (w : World) : Prop :=
  ∃ m fs', w.fs.exec (Manifest.open dir) () = some (.ok m, fs', ()) ∧ w.Found m.current.val ∧
    ∀ id ∈ m.current.val.referencedIds, ∃ c, Table c (w.contents id) ∧
      (fs'.disk (tablePath dir id)).live = some ⟨c, []⟩ ∧
      ∃ r fs'', fs'.exec (SsTableReader.open (tablePath dir id)) () = some (.ok r, fs'', ())

/-! ### The invariant -/

/-- The directory holds the version, for the process and for a power loss. -/
structure Shelved (dir : Dir) (v : Version) (T : Contents) (d : Disk) : Prop where
  live : Image Slot.live dir d v T
  durable : Image Slot.durable dir d v T

/-- What a power loss may find. -/
def Spared (dir : Dir) (w : World) (d : Disk) : Prop :=
  ∃ v, w.Found v ∧ Image Slot.durable dir d v w.contents

def Consistent (dir : Dir) (w : World) : Prop :=
  match w.manifest with
  | some m => m.current.val = w.installed ∧ Shelved dir w.installed w.contents w.fs.disk
  | none => ∃ v, w.Found v ∧ Shelved dir v w.contents w.fs.disk

theorem Consistent.spared {dir : Dir} {w : World} (h : Consistent dir w) :
    w.Spared dir w.fs.disk := by
  obtain ⟨fs, manifest, v, pending, T⟩ := w
  cases manifest with
  | some m => exact ⟨v, Or.inl rfl, h.2.durable⟩
  | none =>
    obtain ⟨u, hu, hs⟩ := h
    exact ⟨u, hu, hs.durable⟩

theorem consistent_crash {dir : Dir} {w : World} {fs : SimFs} (ht : fs.Tidy)
    (h : w.Spared dir fs.disk) :
    Consistent dir ⟨fs.crash, none, w.installed, w.pending, w.contents⟩ := by
  obtain ⟨v, hv, hd⟩ := h
  obtain ⟨hlive, hdurable⟩ := hd.crash (SimFs.crash_refines ht)
  exact ⟨v, hv, hlive, hdurable⟩

omit [TableHashing] in
theorem durable_writing {dir : Dir} {d : Disk} {p : Path} (h : p ≠ manifestTmpPath dir) (s : Slot) :
    (writing d dir s p).durable = (d p).durable := by
  rw [writing, Function.update_of_ne h]

theorem durable_switched {dir : Dir} {d : Disk} {v : Version} {p : Path}
    (h : p ≠ manifestTmpPath dir) (s : Slot) :
    (switched d dir v s p).durable = (d p).durable := by
  rw [switched, Function.update_of_ne h, Disk.durable_put]

theorem image_writing {dir : Dir} {d : Disk} {v : Version} {T : Contents}
    (h : Image Slot.durable dir d v T) (s : Slot) :
    Image Slot.durable dir (writing d dir s) v T :=
  h.congr (durable_writing manifest_ne_tmp s)
    (fun id _ => durable_writing (tablePath_ne_tmp dir id) s) fun _ _ => rfl

theorem image_switched {dir : Dir} {d : Disk} {v v' : Version} {T : Contents}
    (h : Image Slot.durable dir d v T) (s : Slot) :
    Image Slot.durable dir (switched d dir v' s) v T :=
  h.congr (durable_switched manifest_ne_tmp s)
    (fun id _ => durable_switched (tablePath_ne_tmp dir id) s) fun _ _ => rfl

theorem image_grown {dir : Dir} {d d' : Disk} {v : Version} {T T' : Contents}
    (h : Image Slot.live dir d v T) (hd : Grown dir d d')
    (hT : ∀ id ∈ v.referencedIds, T' id = T id) : Image Slot.live dir d' v T' :=
  h.congr (by rw [(hd _).2 (Or.inr fun id he => tablePath_ne_manifest dir id he.symm)])
    (fun id hid => by rw [(hd _).2 (Or.inl (h.tables.isSome hid))]) hT

/-- The new manifest is durable. -/
theorem shelved_written {dir : Dir} {d : Disk} {v : Version} {T : Contents} (hw : v.Words)
    (hf : v.LengthsFit) (hT : Kept Slot.live dir d T v.referencedIds) :
    Shelved dir v T (written d dir v) :=
  have h := Image.switched hw hf hT .absent
  ⟨h.commit_live, h.commit⟩

theorem Shelved.commit {dir : Dir} {v : Version} {T : Contents} {d : Disk}
    (h : Image Slot.live dir d v T) : Shelved dir v T (d.commit dir) := ⟨h.commit_live, h.commit⟩

/-- **Opening** answers, and a power loss on the way leaves the same version. -/
theorem Consistent.open {dir : Dir} {w : World} (h : Consistent dir w) (hw : w.manifest = none) :
    wpE (Disk.sem Faults.none) False False (fun σ : Disk × Unit => w.Spared dir σ.1)
      (Manifest.open dir)
      (fun m σ => w.Found m.current.val ∧ Shelved dir m.current.val w.contents σ.1)
      (fun _ _ => False) (w.fs.disk, ()) := by
  rw [Consistent, hw] at h
  obtain ⟨v, hv, hs⟩ := h
  rcases hs.live.manifest with hm | ⟨hm, rfl⟩
  · refine wpE_open_some hm ?_ ⟨v, hv, hs.durable⟩ ⟨hv, hs⟩
    rw [Blob.content_mk, List.append_nil]
    exact hs.live.decodes
  · have hwritten : Shelved dir .empty w.contents (written w.fs.disk dir .empty) :=
      shelved_written Version.words_empty Version.lengthsFit_empty
        fun id hid => absurd hid List.not_mem_nil
    refine wpE_open_none hm (fun s => ⟨_, hv, image_writing hs.durable s⟩)
      (fun s => ⟨_, hv, image_switched hs.durable s⟩) ⟨_, hv, hwritten.durable⟩ ⟨hv, hwritten⟩

/-- **A link of the chain.**  A power loss on the way leaves the old version or the new
one, and when the install has answered it leaves the new one. -/
theorem Consistent.extend {dir : Dir} {fs : SimFs} {v v' : Version} {pending : Option Version}
    {T : Contents} {m : Manifest} {ts : List NewTable}
    (h : Consistent dir ⟨fs, some m, v, pending, T⟩) (hlink : Link v ts v') (hf : v'.LengthsFit)
    (hts : ∀ t ∈ ts, t.Fits) :
    wpE (Disk.sem Faults.none) False True
      (fun σ => Spared dir ⟨fs, none, v, some v', contentsWith T ts⟩ σ.1)
      (extend dir ts v')
      (fun _ σ => σ.2.current.val = v' ∧ Shelved dir v' (contentsWith T ts) σ.1)
      (fun _ σ => σ.2.current.val = v ∧ Shelved dir v (contentsWith T ts) σ.1) (fs.disk, m) := by
  obtain ⟨hcur, hs⟩ := h
  have hno : ∀ {P : Prop}, Faults.none.Any → P := fun ha => absurd ha Faults.not_any_none
  -- the tables of the version are not among the new ones
  have hT : ∀ id ∈ v.referencedIds, contentsWith T ts id = T id := fun id hid =>
    contentsWith_of_not_mem (fun hm => by
      obtain ⟨t, ht, rfl⟩ := List.mem_map.mp hm
      exact hlink.new t ht hid) T
  have hold : ∀ {d'}, Grown dir fs.disk d' → Shelved dir v (contentsWith T ts) d' := fun {d'} hd =>
    ⟨image_grown hs.live hd hT, hs.durable.congr (hd _).1 (fun _ _ => (hd _).1) hT⟩
  have hspare : ∀ {d'}, Image Slot.durable dir d' v (contentsWith T ts) →
      Spared dir ⟨fs, none, v, some v', contentsWith T ts⟩ d' := fun h => ⟨v, Or.inl rfl, h⟩
  have hspare' : ∀ {d'}, Image Slot.durable dir d' v' (contentsWith T ts) →
      Spared dir ⟨fs, none, v, some v', contentsWith T ts⟩ d' := fun h => ⟨v', Or.inr rfl, h⟩
  refine wpE_bind.mpr (wpE_writeTables (d := fs.disk) (fun d' hd => hspare (hold hd).durable)
    (fun err d' hd => ⟨hcur, hold hd⟩) ts (fun t ht => ⟨hlink.sorted t ht, fun _ => hts t ht⟩)
    (.refl _ _) fun d' hd hkeep hnd hnone htables => ?_)
  have hkept : Kept Slot.live dir d' (contentsWith T ts) v'.referencedIds := by
    intro id hid
    rcases hlink.refers id hid with hid | ⟨t, ht, rfl, hne⟩
    · exact (hold hd).live.tables id hid
    · rw [contentsWith_of_mem hnd ht]
      exact htables t ht hne
  have hnew := shelved_written hlink.words hf hkept
  have hids := mem_liveIds_adopt m v'
  refine wpE_mapError (wpE_install (fun ha => hno ha)
    (fun s => hspare (image_writing (hold hd).durable s))
    (fun _ s => hspare (image_switched (hold hd).durable s)) (fun _ => hspare' hnew.durable)
    (fun _ => hspare' hnew.durable) (fun _ d'' hsw => ⟨?_, hspare' ?_⟩) fun _ d'' hsw _ => ⟨rfl, ?_⟩)
  · exact hspare' (hnew.durable.durable_congr hsw.durable)
  · exact (hnew.live.swept hsw hids).commit
  · exact .commit (hnew.live.swept hsw hids)

/-- No length of the link is narrowed. -/
def Exact (ts : List NewTable) (v : Version) : Prop := v.LengthsFit ∧ ∀ t ∈ ts, t.Fits

/-- **One call preserves consistency**, whole or cut short. -/
theorem Step.consistent {dir : Dir} {w w' : World} (hstep : Step dir Exact w w') (ht : w.fs.Tidy)
    (h : Consistent dir w) : w'.fs.Tidy ∧ Consistent dir w' := by
  cases hstep with
  | @opened fs fs' v pending T m hrun =>
    obtain ⟨ht', _, _, hs⟩ := SimFs.exec_spec ht (h.open rfl) hrun
    exact ⟨ht', rfl, hs⟩
  | @openCut fs fs' v pending T hrun =>
    obtain ⟨ht', hspared⟩ := SimFs.stops_spec ht (h.open rfl) hrun
    exact ⟨SimFs.crash_tidy ht', consistent_crash ht' hspared⟩
  | @installed fs fs' v v' pending T m m' ts hlink hok hrun =>
    obtain ⟨ht', _, hpost⟩ := SimFs.exec_spec ht (h.extend hlink hok.1 hok.2) hrun
    exact ⟨ht', hpost⟩
  | @refused fs fs' v v' pending T m m' ts err hlink hok hrun =>
    obtain ⟨ht', _, hpost⟩ := SimFs.exec_spec ht (h.extend hlink hok.1 hok.2) hrun
    exact ⟨ht', hpost⟩
  | @installCut fs fs' v v' pending T m m' ts hlink hok hrun =>
    obtain ⟨ht', hspared⟩ := SimFs.stops_spec ht (h.extend hlink hok.1 hok.2) hrun
    exact ⟨SimFs.crash_tidy ht', consistent_crash
      (w := ⟨fs', none, v, some v', contentsWith T ts⟩) ht' hspared⟩
  | pinned => exact ⟨ht, h⟩
  | unpinned => exact ⟨ht, h⟩
  | @closed fs v pending T m => exact ⟨ht, v, Or.inl rfl, h.2⟩
  | crashed => exact ⟨SimFs.crash_tidy ht, consistent_crash ht h.spared⟩

theorem start_consistent (dir : Dir) (rng : Nat → Nat) : Consistent dir (start rng) :=
  ⟨.empty, Or.inl rfl, .empty rfl _, .empty rfl _⟩

/-- **Every run is consistent.** -/
theorem Reachable.consistent {dir : Dir} {w : World} (h : Reachable dir Exact w) :
    w.fs.Tidy ∧ Consistent dir w := by
  obtain ⟨rng, hrun⟩ := h
  induction hrun with
  | refl => exact ⟨SimFs.new_tidy rng, start_consistent dir rng⟩
  | tail _ hstep ih => exact hstep.consistent ih.1 ih.2

/-- **The switch is atomic, and nothing dangles.**  In every run in which no length is
narrowed, whenever the manifest is not open, opening it answers with the version that
was installed last, or with the one whose install the power loss cut short, and every
table of that version is there, whole, and can be opened. -/
theorem switch_atomic {dir : Dir} {w : World} (h : Reachable dir Exact w)
    (hw : w.manifest = none) : Recovers dir w := by
  obtain ⟨ht, hc⟩ := h.consistent
  obtain ⟨m, fs', _, hrun, ht', hfound, hs⟩ := SimFs.exec_ok ht (hc.open hw)
  refine ⟨m, fs', hrun, hfound, fun id hid => ?_⟩
  obtain ⟨c, hlive, n, hfile, rfl⟩ := hs.live.tables id hid
  have hopen : wpE (Disk.sem Faults.none) False False (fun _ : Disk × Unit => True)
      (SsTableReader.open (tablePath dir id)) (fun _ _ => True) (fun _ _ => False)
      (fs'.disk, ()) :=
    SsTableReader.wpE_open hfile trivial hlive (List.append_nil _) trivial
      fun ha => absurd ha Faults.not_any_none
  obtain ⟨r, fs'', _, hr, _⟩ := SimFs.exec_ok ht' hopen
  exact ⟨_, ⟨n, hfile, rfl⟩, hlive, r, fs'', hr⟩

/-! ### A count too large for its field

With `2 ^ 32` tiers the count wraps to zero, and the decoder finds no tier at all. -/

/-- An install that does not care whether lengths are narrowed. -/
theorem wpE_install_any {dir : Dir} {d : Disk} {m : Manifest} {v : Version} :
    wpE (Disk.sem Faults.none) False False (fun _ => True) (Manifest.extend dir [] v)
      (fun _ σ => (σ.1 (manifestPath dir)).durable = some ⟨encodeVersion v, []⟩)
      (fun _ _ => False) (d, m) := by
  have hno : ∀ {P : Prop}, Faults.none.Any → P := fun ha => absurd ha Faults.not_any_none
  refine wpE_bind.mpr (wpE_pure.mpr ⟨trivial, wpE_mapError (wpE_install (fun ha => hno ha)
    (fun _ => trivial) (fun _ _ => trivial) (fun _ => trivial) (fun _ => trivial)
    (fun _ _ _ => ⟨trivial, trivial⟩) fun _ d' hs _ => ?_)⟩)
  show (d'.commit dir (manifestPath dir)).durable = _
  rw [Disk.durable_commit (show (manifestPath dir).dir = dir from rfl)]
  rcases hs (manifestPath dir) with he | ⟨_, _, id, hid, _⟩
  · rw [he, written, Disk.live_commit, switched, Function.update_of_ne manifest_ne_tmp,
      Disk.live_put]
  · cases hid

end Hashed

theorem decodeVersion_wrapped [Hashing] {v : Version} (hw : v.Words)
    (h : v.tiers.length % 2 ^ 32 = 0) :
    decodeVersion (encodeVersion v) = .ok ⟨[], v.nextSeq, v.nextTableId⟩ := by
  have hcount : leBytes 4 v.tiers.length = leBytes 4 0 := by
    have := leBytes_leNat (leBytes 4 v.tiers.length)
    rw [length_leBytes, leNat_leBytes] at this
    rw [← this]
    exact congrArg (leBytes 4) h
  have hseq := hw.nextSeq
  have hid := hw.nextTableId
  rw [encodeVersion, decodeVersion_withCrc, encodeBody, decodeBody_tagged, StateT.run, decodeLayout,
    (Parser.Reads.nat (by omega)).bind_apply, (Parser.Reads.nat (by omega)).bind_apply, hcount,
    (Parser.Reads.nat (by decide)).bind_apply]
  rfl

def demoDir : Dir := [100]

def calm : Nat → Nat := fun _ => 0

attribute [local instance] TableHashing.emptyKey

/-- A table is written and installed, and the power goes. -/
theorem switch_atomic_demo : ∃ fs, Recovers demoDir ⟨fs, none, ⟨[[⟨1, 1, [], []⟩]], 2, 2⟩, none,
    contentsWith (fun _ => []) [⟨1, 1, [([], ⟨1, .value []⟩)]⟩]⟩ := by
  have hrun : ∃ m fs', (SimFs.new calm).exec (Manifest.open demoDir) () = some (.ok m, fs', ()) ∧
      m.current.val = .empty ∧ ∃ m' fs'', fs'.exec (Manifest.extend demoDir
        [⟨1, 1, [([], ⟨1, .value []⟩)]⟩] ⟨[[⟨1, 1, [], []⟩]], 2, 2⟩) m = some (.ok (), fs'', m') :=
    ⟨_, _, rfl, rfl, _, _, rfl⟩
  obtain ⟨m, fs', hopen, hempty, m', fs'', hinstall⟩ := hrun
  have hlink : Link m.current.val [⟨1, 1, [([], ⟨1, .value []⟩)]⟩] ⟨[[⟨1, 1, [], []⟩]], 2, 2⟩ := by
    rw [hempty]
    refine ⟨⟨by decide, by decide, by decide⟩, ?_, ?_, ?_⟩
    · rintro t (_ | ⟨_, ht⟩)
      · exact ⟨List.pairwise_singleton .., fun x hx => by rw [List.mem_singleton.mp hx]; decide⟩
      · cases ht
    · exact fun t _ hm => absurd hm List.not_mem_nil
    · intro id hid
      obtain rfl := List.mem_singleton.mp hid
      exact Or.inr ⟨_, List.mem_cons_self, rfl, List.cons_ne_nil _ _⟩
  have hexact : Exact [⟨1, 1, [([], ⟨1, .value []⟩)]⟩] ⟨[[⟨1, 1, [], []⟩]], 2, 2⟩ := by
    refine ⟨⟨by decide, by decide, by decide⟩, ?_⟩
    rintro t (_ | ⟨_, ht⟩)
    · refine ⟨?_, ?_, ?_, ?_⟩ <;> decide +kernel
    · cases ht
  refine ⟨fs''.crash, switch_atomic ⟨calm, ?_⟩ rfl⟩
  exact ((Relation.ReflTransGen.single (.opened hopen)).tail (.installed hlink hexact hinstall)).tail
    .crashed

/-- A version with `2 ^ 32` tiers is installed and gone. -/
theorem tier_count_wraps : ∃ fs, Reachable demoDir (fun _ _ => True)
      ⟨fs, none, ⟨List.replicate (2 ^ 32) [], 1, 1⟩, none, fun _ => []⟩ ∧
    ¬ Recovers demoDir ⟨fs, none, ⟨List.replicate (2 ^ 32) [], 1, 1⟩, none, fun _ => []⟩ := by
  obtain ⟨n, hn⟩ : ∃ n, n = 2 ^ 32 := ⟨_, rfl⟩
  rw [← hn]
  obtain ⟨v, hv⟩ : ∃ v : Version, v = ⟨List.replicate n [], 1, 1⟩ := ⟨_, rfl⟩
  rw [← hv]
  have hids : v.referencedIds = [] := by
    rw [hv, Version.referencedIds, Version.allTables, List.flatten_replicate_nil, List.map_nil]
  have hwords : v.Words := by
    refine ⟨by rw [hv]; exact (by decide : 1 < 2 ^ 64), by rw [hv]; exact (by decide : 1 < 2 ^ 64),
      fun table ht => ?_⟩
    rw [hv, Version.allTables, List.flatten_replicate_nil] at ht
    cases ht
  have hwrap : decodeVersion (encodeVersion v) = .ok ⟨[], 1, 1⟩ := by
    have := decodeVersion_wrapped hwords (by rw [hv, List.length_replicate, hn, Nat.mod_self])
    rwa [hv] at this ⊢
  have hopen : ∃ m fs', (SimFs.new calm).exec (Manifest.open demoDir) () =
      some (.ok m, fs', ()) ∧ m.current.val = .empty := ⟨_, _, rfl, rfl⟩
  obtain ⟨m, fs', hopen, hempty⟩ := hopen
  have hc := start_consistent demoDir calm
  obtain ⟨ht', _, _, _⟩ := SimFs.exec_spec (SimFs.new_tidy calm) (hc.open rfl) hopen
  obtain ⟨_, fs'', m', hinstall, ht'', hdurable⟩ := SimFs.exec_ok ht' (wpE_install_any (v := v))
  refine ⟨fs''.crash, ⟨calm, ?_⟩, fun hrec => ?_⟩
  · have hlink : Link m.current.val [] v := ⟨hwords, fun _ ht => absurd ht List.not_mem_nil,
      fun _ ht => absurd ht List.not_mem_nil, fun id hid => by rw [hids] at hid; cases hid⟩
    exact ((Relation.ReflTransGen.single (.opened hopen)).tail
      (.installed hlink trivial hinstall)).tail .crashed
  · obtain ⟨m₁, fs₁, hrun, hfound, _⟩ := hrec
    have hkept : fs''.crash.disk (manifestPath demoDir) = .kept ⟨encodeVersion v, []⟩ := by
      have := SimFs.crash_refines ht'' (manifestPath demoDir)
      rw [hdurable] at this
      obtain ⟨k, hk, he⟩ := this
      rw [he, hk.of_tail_eq_nil rfl]
    have hspec : wpE (Disk.sem Faults.none) False False (fun _ : Disk × Unit => True)
        (Manifest.open demoDir) (fun m _ => m.current.val = ⟨[], 1, 1⟩) (fun _ _ => True)
        (fs''.crash.disk, ()) :=
      wpE_open_some (v := ⟨[], 1, 1⟩) (by rw [hkept]; rfl)
        (by rw [Blob.content_mk, List.append_nil, hwrap]) trivial rfl
    obtain ⟨_, _, hval⟩ := SimFs.exec_spec (SimFs.crash_tidy ht'') hspec hrun
    change m₁.current.val = _ at hval
    have hlen : v.tiers.length = n := by rw [hv, List.length_replicate]
    rcases hfound with he | he
    · rw [hval] at he
      change (⟨[], 1, 1⟩ : Version) = v at he
      rw [← he, hn] at hlen
      cases hlen
    · cases he

end World

end AccretionDb.Manifest
