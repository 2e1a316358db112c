import AccretionDb.Lib.Rely
import AccretionDb.Manifest.Codec
import AccretionDb.Storage.Rules

/-! # Installing a version

A version becomes the current one in three steps: a new manifest file is written beside
the old one and renamed over it, the memory adopts the version, and the tables that no
version in use refers to are deleted.  A version is in use while it is the current one
or somebody holds it, and who holds what is counted (`Manifest.strongCount`).
-/

namespace AccretionDb

open CrashLogic

/-- `table_path`. -/
def tablePath (dir : Dir) (id : Nat) : Path := ⟨dir, .sst id⟩

def manifestPath (dir : Dir) : Path := ⟨dir, .manifest⟩

def manifestTmpPath (dir : Dir) : Path := ⟨dir, .manifestTmp⟩

/-- The number in front of `.sst`.  Names that the engine does not give may have one
too. -/
def parseTableId (path : Path) : Option Nat :=
  match path.name with
  | .sst id => if id < 2 ^ 64 then some id else none
  | .other name =>
    if [46, 115, 115, 116] <:+ name then parseU64 (name.take (name.length - 4)) else none
  | _ => none

theorem parse_tablePath {dir : Dir} {id : Nat} (h : id < 2 ^ 64) :
    parseTableId (tablePath dir id) = some id := if_pos h

theorem eq_of_parseTableId {dir : Dir} {id i : Nat} (h : parseTableId (tablePath dir id) = some i) :
    i = id := by
  change (if id < 2 ^ 64 then some id else none) = some i at h
  split at h
  · exact (Option.some.inj h).symm
  · cases h

/-- The version in use, and the ones that were.  `held` has the address of a version
once for everybody outside who holds it. -/
structure Manifest where
  current : Arc Version
  /-- Superseded versions, oldest first. -/
  obsolete : List (Arc Version)
  held : List Nat
  /-- No version has this address yet, nor a later one. -/
  nextAddr : Nat

namespace Manifest

def start (v : Version) : Manifest := ⟨⟨0, v⟩, [], [], 1⟩

/-- The versions in memory. -/
def versions (m : Manifest) : List (Arc Version) := m.current :: m.obsolete

/-- `Arc::strong_count`: the manifest itself holds its versions. -/
def strongCount (m : Manifest) (v : Arc Version) : Nat :=
  (m.versions.map Arc.addr).count v.addr + m.held.count v.addr

def pin (m : Manifest) : Manifest := { m with held := m.current.addr :: m.held }

def unpin (v : Arc Version) (m : Manifest) : Manifest := { m with held := m.held.erase v.addr }

/-- The swap of `install`. -/
def adopt (v : Version) (m : Manifest) : Manifest where
  current := ⟨m.nextAddr, v⟩
  obsolete := m.obsolete ++ [m.current]
  held := m.held
  nextAddr := m.nextAddr + 1

/-- Forget the superseded versions that nobody else holds. -/
def retain (m : Manifest) : Manifest :=
  { m with obsolete := m.obsolete.filter fun v => decide (m.strongCount v > 1) }

def liveIds (m : Manifest) : List Nat := m.versions.flatMap fun v => v.val.referencedIds

section Programs

variable [Hashing] {M ε : Type}

def writeManifest (dir : Dir) (v : Version) : Io M ManifestError Unit := do
  let tmp := manifestTmpPath dir
  let bytes := encodeVersion v
  let _ ← (storage (.delete tmp)).attempt
  (storage (.create tmp)).mapError .storage
  Act.fits v.LengthsFit
  let _at ← (storage (.append tmp bytes)).mapError .storage
  (storage (.syncFile tmp)).mapError .storage
  (storage (.rename tmp (manifestPath dir))).mapError .storage
  (storage (.syncDir dir)).mapError .storage

/-- `Manifest::open`; a manifest that cannot be opened is taken to be missing. -/
def «open» (dir : Dir) : Io M ManifestError Manifest := do
  let path := manifestPath dir
  match ← (storage (.open path)).attempt with
  | .ok _ => do
    let len ← (storage (.len path)).mapError .storage
    let buf ← (storage (.readAt path 0 len)).mapError .storage
    let v ← Act.ofExcept (decodeVersion buf)
    pure (start v)
  | .error (_ : StorageError) => do
    writeManifest dir Version.empty
    pure (start Version.empty)

/-- Pin and return the current version. -/
def pinCurrent : Io Manifest ε (Arc Version) := do
  let m ← Act.modifyGet pin
  pure m.current

/-- The loop of `gc` over the listing; the answer is whether anything was deleted. -/
def sweep (liveIds : List Nat) : List Path → Bool → Io M ManifestError Bool
  | [], deletedAny => pure deletedAny
  | entry :: entries, deletedAny =>
    match parseTableId entry with
    | some id =>
      if id ∈ liveIds then sweep liveIds entries deletedAny
      else do
        (storage (.delete entry)).mapError .storage
        sweep liveIds entries true
    | none => sweep liveIds entries deletedAny

/-- The files that `gc` deletes, once it knows which tables are live. -/
def collect (dir : Dir) (liveIds : List Nat) : Io M ManifestError Unit := do
  let entries ← (storage (.list dir)).mapError .storage
  let deletedAny ← sweep liveIds entries false
  if deletedAny then (storage (.syncDir dir)).mapError .storage else pure ()

def gc (dir : Dir) : Io Manifest ManifestError Unit := do
  let m ← Act.modifyGet retain
  Act.scope () (collect dir m.retain.liveIds)

/-- The callers drop the version that `install` returns, so it answers with nothing. -/
def install (dir : Dir) (v : Version) : Io Manifest ManifestError Unit := do
  Act.scope () (writeManifest dir v)
  Act.modify (adopt v)
  gc dir

end Programs

/-! ### Writing the file -/

section Specs

variable [Hashing] {M : Type} {e : Faults} {strict H : Prop} {d : Disk} {m : M} {dir : Dir}
variable {v : Version}

/-- The disk while the new file is written: it does not matter what the scratch name
stands for. -/
def writing (d : Disk) (dir : Dir) (s : Slot) : Disk := Function.update d (manifestTmpPath dir) s

/-- The disk when the new file has its name. -/
def switched (d : Disk) (dir : Dir) (v : Version) (s : Slot) : Disk :=
  Function.update (d.put (manifestPath dir) ⟨encodeVersion v, []⟩) (manifestTmpPath dir) s

omit [Hashing] in
theorem writing_self : writing d dir (d (manifestTmpPath dir)) = d := Function.update_eq_self ..

omit [Hashing] in
theorem manifest_ne_tmp : manifestPath dir ≠ manifestTmpPath dir := by
  intro h
  injection h with _ h
  cases h

omit [Hashing] in
theorem put_writing (s : Slot) (b : Blob) :
    (writing d dir s).put (manifestTmpPath dir) b = writing d dir (s.link b) := by
  rw [Disk.put, writing, Function.update_self, Function.update_idem, writing]

theorem commit_switched {s : Slot} (h : s.live = none) :
    (switched d dir v s).commit dir = (switched d dir v .absent).commit dir := by
  funext p
  unfold Disk.commit switched
  by_cases hp : p = manifestTmpPath dir
  · rw [hp, Function.update_self, Function.update_self, Slot.commit_eq_absent h,
      Slot.commit_absent]
    exact (if_pos rfl).trans (if_pos rfl).symm
  · rw [Function.update_of_ne hp, Function.update_of_ne hp]

/-- The scratch file takes the name of the manifest. -/
theorem rename_writing (s : Slot) :
    Function.update (Function.update (writing d dir s) (manifestPath dir)
      ((writing d dir s (manifestPath dir)).link ⟨encodeVersion v, []⟩)) (manifestTmpPath dir)
      (writing d dir s (manifestTmpPath dir)).unlink = switched d dir v s.unlink := by
  rw [writing, Function.update_self, Function.update_of_ne manifest_ne_tmp,
    Function.update_comm manifest_ne_tmp.symm, Function.update_idem, switched, Disk.put]

omit [Hashing] in
theorem sync_append_empty (bytes : Bytes) : (Blob.empty.append bytes).sync = ⟨bytes, []⟩ := rfl

omit [Hashing] in
theorem not_linked_link (s : Slot) (b : Blob) : ¬ (s.link b).linked := by
  cases s <;> exact id

/-- **The switch.**  Up to the rename only the scratch file changes, and from then on
the new manifest is there, whole; the last step makes it durable. -/
theorem wpE_writeManifest {C : Disk × M → Prop} {Q : Unit → Disk × M → Prop}
    {R : ManifestError → Disk × M → Prop} (hC : ∀ s, C (writing d dir s, m))
    (hC' : (strict → v.LengthsFit) → ∀ s, C (switched d dir v s, m))
    (hdone : (strict → v.LengthsFit) → C ((switched d dir v .absent).commit dir, m))
    (hok : (strict → v.LengthsFit) → Q () ((switched d dir v .absent).commit dir, m))
    (herr : e.Any → ∀ err s, R err (writing d dir s, m))
    (herr' : (strict → v.LengthsFit) → e.Any → ∀ err s, R err (switched d dir v s, m)) :
    wpE (Disk.sem e) strict H C (writeManifest dir v) Q R (d, m) := by
  have hself : ∀ {P : Disk × M → Prop}, (∀ s, P (writing d dir s, m)) → P (d, m) := fun h => by
    have := h (d (manifestTmpPath dir))
    rwa [writing_self] at this
  -- what is left to do once the scratch name is as good as free
  have hrest : ∀ s : Slot, (e.Any ∨ s.live = none) →
      wpE (Disk.sem e) strict H C (do
        (storage (.create (manifestTmpPath dir))).mapError .storage
        Act.fits v.LengthsFit
        let _at ← (storage (.append (manifestTmpPath dir) (encodeVersion v))).mapError .storage
        (storage (.syncFile (manifestTmpPath dir))).mapError .storage
        (storage (.rename (manifestTmpPath dir) (manifestPath dir))).mapError .storage
        (storage (.syncDir dir)).mapError .storage) Q R (writing d dir s, m) := by
    intro s hs
    have hself : writing d dir s (manifestTmpPath dir) = s := Function.update_self ..
    have hput : ∀ b, C ((writing d dir s).put (manifestTmpPath dir) b, m) := fun b => by
      rw [put_writing]
      exact hC _
    have hbad : e.Any → ∀ err b, R err ((writing d dir s).put (manifestTmpPath dir) b, m) :=
      fun ha err b => by
        rw [put_writing]
        exact herr ha err _
    refine wpE_bind.mpr (wpE_mapError ?_)
    cases hl : s.live with
    | some b =>
      refine wpE_create_exists (hC s) (by rw [hself, hl]; rfl) ?_ fun hf msg =>
        herr (Faults.any_of_fail hf) _ s
      rcases hs with ha | hn
      · exact herr ha _ s
      · rw [hn] at hl
        cases hl
    | none =>
      refine wpE_create (hC s) (by rw [hself, hl]) ?_ fun hf msg =>
        herr (Faults.any_of_fail hf) _ s
      show C ((writing d dir s).put (manifestTmpPath dir) .empty, m) ∧
        wpE _ _ _ _ _ _ _ ((writing d dir s).put (manifestTmpPath dir) .empty, m)
      refine ⟨hput _, wpE_bind.mpr (wpE_fits (hput _) fun hfit => ?_)⟩
      refine wpE_bind.mpr (wpE_mapError (wpE_append_put hput ?_ fun ha err b => hbad ha _ b))
      refine wpE_bind.mpr (wpE_mapError (wpE_syncFile_put hput ?_ fun ha err b => hbad ha _ b))
      rw [sync_append_empty, put_writing]
      have hslot : writing d dir (s.link ⟨encodeVersion v, []⟩) (manifestTmpPath dir) =
          s.link ⟨encodeVersion v, []⟩ := Function.update_self ..
      refine wpE_bind.mpr (wpE_mapError (wpE_rename (b := ⟨encodeVersion v, []⟩) (hC _)
        (by rw [hslot, Slot.live_link]) manifest_ne_tmp.symm ?_ ?_ fun hf msg =>
          herr (Faults.any_of_fail hf) _ _))
      · rw [hslot]
        exact not_linked_link s _
      rw [rename_writing]
      refine ⟨hC' hfit _, wpE_mapError (wpE_syncDir (hC' hfit _) ?_ fun hf msg =>
        herr' hfit (Faults.any_of_fail hf) _ _)⟩
      rw [commit_switched (Slot.live_unlink _)]
      exact ⟨hdone hfit, hok hfit⟩
  refine wpE_bind.mpr (wpE_attempt (wpE_delete_any (hself hC) (fun _ => ?_) fun hno err => ?_))
  · exact ⟨hC _, hrest _ (Or.inr (Slot.live_unlink _))⟩
  · have := hrest (d (manifestTmpPath dir))
      (hno.symm.imp Faults.any_of_fail id)
    rwa [writing_self] at this

/-! ### Collecting garbage -/

/-- Some files of the directory are deleted, none of them a live table. -/
def Swept (dir : Dir) (live : List Nat) (d d' : Disk) : Prop :=
  ∀ p, d' p = d p ∨
    (p.dir = dir ∧ d' p = (d p).unlink ∧ ∃ id, parseTableId p = some id ∧ id ∉ live)

/-- The tables that are there are live. -/
def NoGarbage (dir : Dir) (live : List Nat) (d : Disk) : Prop :=
  ∀ p id, p.dir = dir → parseTableId p = some id → (d p).live.isSome → id ∈ live

omit [Hashing] in
theorem Swept.refl (dir : Dir) (live : List Nat) (d : Disk) : Swept dir live d d :=
  fun _ => Or.inl rfl

omit [Hashing] in
theorem Swept.delete {live : List Nat} {d' : Disk} (h : Swept dir live d d') {p : Path} {id : Nat}
    (hp : d' p = d p) (hdir : p.dir = dir) (hid : parseTableId p = some id) (hno : id ∉ live) :
    Swept dir live d (Function.update d' p (d' p).unlink) := by
  intro q
  by_cases hq : q = p
  · subst hq
    rw [Function.update_self, hp]
    exact Or.inr ⟨hdir, rfl, id, hid, hno⟩
  · rw [Function.update_of_ne hq]
    exact h q

omit [Hashing] in
theorem wpE_sweep {live : List Nat} {C : Disk × M → Prop} {R : ManifestError → Disk × M → Prop}
    (hC : ∀ d', Swept dir live d d' → C (d', m))
    (herr : e.Any → ∀ err d', Swept dir live d d' → R err (d', m)) :
    ∀ (entries : List Path), entries.Nodup →
      ∀ {d' : Disk} {any : Bool} {Q : Bool → Disk × M → Prop}, Swept dir live d d' →
      (∀ p ∈ entries, d' p = d p ∧ p.dir = dir ∧ (d p).live.isSome) →
      (∀ d'' any', Swept dir live d d'' → (∀ p ∉ entries, d'' p = d' p) →
        (∀ p ∈ entries, ∀ id, parseTableId p = some id → (d'' p).live.isSome → id ∈ live) →
        (any' = false → any = false ∧ d'' = d') → Q any' (d'', m)) →
      wpE (Disk.sem e) strict H C (sweep live entries any) Q R (d', m) := by
  intro entries
  induction entries with
  | nil =>
    intro _ d' any Q hs _ hok
    refine wpE_pure.mpr ⟨hC d' hs, hok d' any hs (fun _ _ => rfl) (fun p hp => ?_) fun h => ⟨h, rfl⟩⟩
    cases hp
  | cons entry entries ih =>
    intro hnd d' any Q hs hmem hok
    obtain ⟨hnot, hnd⟩ := List.nodup_cons.mp hnd
    obtain ⟨hentry, hrest⟩ := List.forall_mem_cons.mp hmem
    rw [sweep]
    cases hid : parseTableId entry with
    | none =>
      refine ih hnd hs hrest fun d'' any' hs'' hout hlive hany => hok d'' any' hs'' (fun p hp => ?_)
        (fun p hp id hpid hsome => ?_) hany
      · exact hout p fun h => hp (List.mem_cons_of_mem _ h)
      · rcases List.mem_cons.mp hp with rfl | hp
        · rw [hid] at hpid
          cases hpid
        · exact hlive p hp id hpid hsome
    | some id =>
      dsimp only
      by_cases hin : id ∈ live
      · rw [if_pos hin]
        refine ih hnd hs hrest fun d'' any' hs'' hout hlive hany => hok d'' any' hs''
          (fun p hp => ?_) (fun p hp id' hpid hsome => ?_) hany
        · exact hout p fun h => hp (List.mem_cons_of_mem _ h)
        · rcases List.mem_cons.mp hp with rfl | hp
          · rw [hid] at hpid
            exact Option.some.inj hpid ▸ hin
          · exact hlive p hp id' hpid hsome
      · rw [if_neg hin]
        have hs' := hs.delete hentry.1 hentry.2.1 hid hin
        refine wpE_bind.mpr (wpE_mapError (wpE_delete (hC d' hs) ?_ ⟨hC _ hs', ?_⟩ fun hf msg =>
          herr (Faults.any_of_fail hf) _ d' hs))
        · rw [hentry.1]
          exact hentry.2.2
        · refine ih hnd hs' (fun p hp => ?_) fun d'' any' hs'' hout hlive hany => ?_
          · have hne : p ≠ entry := fun h => hnot (h ▸ hp)
            rw [Function.update_of_ne hne]
            exact hrest p hp
          · refine hok d'' any' hs'' (fun p hp => ?_) (fun p hp id' hpid hsome => ?_) fun h => ?_
            · have hne : p ≠ entry := fun h => hp (h ▸ List.mem_cons_self)
              rw [hout p fun h => hp (List.mem_cons_of_mem _ h), Function.update_of_ne hne]
            · rcases List.mem_cons.mp hp with rfl | hp
              · rw [hout p hnot, Function.update_self, Slot.live_unlink] at hsome
                cases hsome
              · exact hlive p hp id' hpid hsome
            · cases (hany h).1

omit [Hashing] in
/-- **Garbage collection** deletes no live table, and leaves no other. -/
theorem wpE_collect {live : List Nat} {C : Disk × M → Prop} {Q : Unit → Disk × M → Prop}
    {R : ManifestError → Disk × M → Prop} (hC : ∀ d', Swept dir live d d' → C (d', m))
    (hC' : ∀ d', Swept dir live d d' → C (d'.commit dir, m))
    (hsame : NoGarbage dir live d → Q () (d, m))
    (hok : ∀ d', Swept dir live d d' → NoGarbage dir live d' → Q () (d'.commit dir, m))
    (herr : e.Any → ∀ err d', Swept dir live d d' → R err (d', m)) :
    wpE (Disk.sem e) strict H C (collect dir live) Q R (d, m) := by
  have hself := Swept.refl dir live d
  refine wpE_bind.mpr (wpE_mapError (wpE_list (hC d hself) (fun ps hps => ?_) fun hf msg =>
    herr (Faults.any_of_fail hf) _ d hself))
  refine wpE_bind.mpr (wpE_sweep hC herr ps hps.1 hself
    (fun p hp => ⟨rfl, (hps.2 p).mp hp⟩) fun d' any hs hout hlive hany => ?_)
  have hclean : NoGarbage dir live d' := by
    intro p id hdir hid hsome
    by_cases hp : p ∈ ps
    · exact hlive p hp id hid hsome
    · rw [hout p hp] at hsome
      exact absurd ((hps.2 p).mpr ⟨hdir, hsome⟩) hp
  cases any with
  | true =>
    exact wpE_mapError (wpE_syncDir (hC d' hs) ⟨hC' d' hs, hok d' hs hclean⟩ fun hf msg =>
      herr (Faults.any_of_fail hf) _ d' hs)
  | false =>
    obtain ⟨_, rfl⟩ := hany rfl
    exact wpE_pure.mpr ⟨hC d' hs, hsame hclean⟩

/-! ### Installing -/

/-- The disk when the new manifest is durable. -/
def written (d : Disk) (dir : Dir) (v : Version) : Disk := (switched d dir v .absent).commit dir

theorem commit_written : (written d dir v).commit dir = written d dir v := Disk.commit_commit ..

/-- **Installing**, with others that hold and drop versions: they may move the memory
along `r` between the steps. -/
theorem wpR_install {r : Manifest → Manifest → Prop} (hr : Rely r) {m : Manifest}
    {C : Disk × Manifest → Prop} {Q : Unit → Disk × Manifest → Prop}
    {E : ManifestError → Disk × Manifest → Prop} (sC : Stable (onMemory r) C)
    (sQ : Stable (onMemory r) (Q ())) (sE : ∀ err, Stable (onMemory r) (E err))
    (hC : ∀ s, C (writing d dir s, m))
    (hC' : (strict → v.LengthsFit) → ∀ s, C (switched d dir v s, m))
    (hdone : (strict → v.LengthsFit) → C (written d dir v, m))
    (herr : e.Any → ∀ err s, E err (writing d dir s, m))
    (herr' : (strict → v.LengthsFit) → e.Any → ∀ err s, E err (switched d dir v s, m))
    (hadopt : (strict → v.LengthsFit) → ∀ m₁, r m m₁ → C (written d dir v, m₁.adopt v))
    (hgc : (strict → v.LengthsFit) → ∀ m₁ m₂ d', r m m₁ → r (m₁.adopt v) m₂ →
      Swept dir m₂.retain.liveIds (written d dir v) d' →
      C (d', m₂.retain) ∧ C (d'.commit dir, m₂.retain) ∧ (e.Any → ∀ err, E err (d', m₂.retain)))
    (hok : (strict → v.LengthsFit) → ∀ m₁ m₂ d', r m m₁ → r (m₁.adopt v) m₂ →
      Swept dir m₂.retain.liveIds (written d dir v) d' →
      NoGarbage dir m₂.retain.liveIds d' → Q () (d'.commit dir, m₂.retain)) :
    wpR (onMemory r) (Disk.sem e) strict H C (install dir v) Q E (d, m) := by
  have hR : Rely (onMemory r : Disk × Manifest → Disk × Manifest → Prop) := .onMemory hr
  refine wpR_bind.mpr (wpR_scope hr sC (fun _ => wpR_stable hR sC (fun _ => sQ) sE) sE ?_)
  refine wpE_writeManifest hC hC' hdone (fun hfit => ?_) herr herr'
  refine wpR_bind.mpr (wpR_modify sC (wpR_stable hR sC (fun _ => sQ) sE) (hdone hfit) ?_)
  rintro ⟨_, m₁⟩ ⟨rfl, h₁⟩
  refine ⟨hadopt hfit m₁ h₁, wpR_bind.mpr (wpR_modifyGet sC
    (fun _ => wpR_stable hR sC (fun _ => sQ) sE) (hadopt hfit m₁ h₁) ?_)⟩
  rintro ⟨_, m₂⟩ ⟨rfl, h₂⟩
  have hself := (hgc hfit m₁ m₂ _ h₁ h₂ (.refl _ _ _)).1
  refine ⟨hself, wpR_scope hr sC (fun _ => sQ) sE (wpE_collect ?_ ?_ ?_ ?_ ?_)⟩
  · exact fun d' hs => (hgc hfit m₁ m₂ d' h₁ h₂ hs).1
  · exact fun d' hs => (hgc hfit m₁ m₂ d' h₁ h₂ hs).2.1
  · intro hclean
    have := hok hfit m₁ m₂ _ h₁ h₂ (.refl _ _ _) hclean
    rwa [commit_written] at this
  · exact fun d' hs hclean => hok hfit m₁ m₂ d' h₁ h₂ hs hclean
  · exact fun ha err d' hs => (hgc hfit m₁ m₂ d' h₁ h₂ hs).2.2 ha err

/-- Installing with nobody else there; whatever a call that fails leaves was to be expected
of a power loss at that point. -/
theorem wpE_install {m : Manifest} {C : Disk × Manifest → Prop} {Q : Unit → Disk × Manifest → Prop}
    {E : ManifestError → Disk × Manifest → Prop} (herr : e.Any → ∀ err σ, C σ → E err σ)
    (hC : ∀ s, C (writing d dir s, m))
    (hC' : (strict → v.LengthsFit) → ∀ s, C (switched d dir v s, m))
    (hdone : (strict → v.LengthsFit) → C (written d dir v, m))
    (hadopt : (strict → v.LengthsFit) → C (written d dir v, m.adopt v))
    (hgc : (strict → v.LengthsFit) → ∀ d',
      Swept dir (m.adopt v).retain.liveIds (written d dir v) d' →
      C (d', (m.adopt v).retain) ∧ C (d'.commit dir, (m.adopt v).retain))
    (hok : (strict → v.LengthsFit) → ∀ d',
      Swept dir (m.adopt v).retain.liveIds (written d dir v) d' →
      NoGarbage dir (m.adopt v).retain.liveIds d' → Q () (d'.commit dir, (m.adopt v).retain)) :
    wpE (Disk.sem e) strict H C (install dir v) Q E (d, m) := by
  refine wpE_of_wpR (.onMemory .eq) (wpR_install .eq (stable_onMemory_eq _) (stable_onMemory_eq _)
    (fun _ => stable_onMemory_eq _) hC hC' hdone (fun ha err s => herr ha err _ (hC s))
    (fun hf ha err s => herr ha err _ (hC' hf s)) ?_ ?_ ?_)
  · rintro hf _ rfl
    exact hadopt hf
  · rintro hf _ _ d' rfl rfl hs
    exact ⟨(hgc hf d' hs).1, (hgc hf d' hs).2, fun ha err => herr ha err _ (hgc hf d' hs).1⟩
  · rintro hf _ _ d' rfl rfl hs
    exact hok hf d' hs

omit [Hashing] in
/-- What the version refers to is not collected while it is installed. -/
theorem mem_liveIds_adopt (m : Manifest) (v : Version) :
    ∀ id ∈ v.referencedIds, id ∈ (m.adopt v).retain.liveIds := fun _ hid =>
  List.mem_flatMap.mpr ⟨_, List.mem_cons_self, hid⟩

/-! ### Opening -/

/-- The manifest that is there is read. -/
theorem wpE_open_some {C : Disk × M → Prop} {Q : Manifest → Disk × M → Prop}
    {R : ManifestError → Disk × M → Prop} {b : Blob}
    (hlive : (d (manifestPath dir)).live = some b) (hv : decodeVersion b.content = .ok v)
    (hC : C (d, m)) (hok : Q (start v) (d, m)) :
    wpE (Disk.sem Faults.none) strict H C («open» dir) Q R (d, m) := by
  refine wpE_bind.mpr (wpE_attempt (wpE_open hC (fun _ => ?_) (fun hno => ?_) fun hf => hf.elim))
  swap
  · rw [hlive] at hno
    cases hno
  refine wpE_bind.mpr (wpE_mapError (wpE_len hC (fun b' hb' => ?_) (fun hno => ?_)
    fun hf => hf.elim))
  swap
  · rw [hlive] at hno
    cases hno
  obtain rfl := Option.some.inj (hlive.symm.trans hb')
  refine wpE_bind.mpr (wpE_mapError (wpE_readAt hC hlive (Nat.zero_le _) ?_ fun hf => hf.elim))
  refine wpE_bind.mpr (wpE_ofExcept.mpr ⟨hC, ?_⟩)
  rw [slice_all, hv]
  exact wpE_pure.mpr ⟨hC, hok⟩

/-- One that does not decode is an error. -/
theorem wpE_open_damaged {b : Blob} (hlive : (d (manifestPath dir)).live = some b)
    (hbad : ∀ v, decodeVersion b.content ≠ .ok v) :
    wpE (Disk.sem Faults.none) strict H (fun _ : Disk × M => True) («open» dir)
      (fun _ _ => False) (fun _ _ => True) (d, m) := by
  refine wpE_bind.mpr (wpE_attempt (wpE_open trivial (fun _ => ?_) (fun hno => ?_)
    fun hf => hf.elim))
  swap
  · rw [hlive] at hno
    cases hno
  refine wpE_bind.mpr (wpE_mapError (wpE_len trivial (fun b' hb' => ?_) (fun _ => trivial)
    fun hf => hf.elim))
  obtain rfl := Option.some.inj (hlive.symm.trans hb')
  refine wpE_bind.mpr (wpE_mapError (wpE_readAt trivial hlive (Nat.zero_le _) ?_
    fun hf => hf.elim))
  rw [slice_all]
  refine wpE_bind.mpr (wpE_ofExcept.mpr ⟨trivial, ?_⟩)
  cases hd : decodeVersion b.content with
  | error err => exact trivial
  | ok v => exact absurd hd (hbad v)

/-- Where there is none an empty one is written. -/
theorem wpE_open_none {C : Disk × M → Prop} {Q : Manifest → Disk × M → Prop}
    {R : ManifestError → Disk × M → Prop} (hlive : (d (manifestPath dir)).live = none)
    (hC : ∀ s, C (writing d dir s, m)) (hC' : ∀ s, C (switched d dir .empty s, m))
    (hdone : C (written d dir .empty, m)) (hok : Q (start .empty) (written d dir .empty, m)) :
    wpE (Disk.sem Faults.none) strict H C («open» dir) Q R (d, m) := by
  have hself : C (d, m) := by
    have := hC (d (manifestTmpPath dir))
    rwa [writing_self] at this
  refine wpE_bind.mpr (wpE_attempt (wpE_open hself (fun hsome => ?_) (fun _ => ?_)
    fun hf => hf.elim))
  · rw [hlive] at hsome
    cases hsome
  · refine wpE_bind.mpr (wpE_writeManifest hC (fun _ => hC') (fun _ => hdone) (fun _ => ?_)
      (fun ha => absurd ha Faults.not_any_none) fun _ ha => absurd ha Faults.not_any_none)
    exact wpE_pure.mpr ⟨hdone, hok⟩

end Specs

end Manifest

end AccretionDb
