import AccretionDb.Lib.Posix
import AccretionDb.Storage.Files

/-! # The real file system, and what the simulator says about it

`RealFs` makes a handful of system calls for every method of `Storage`.  On the files
of one directory it does what the simulator does, with one difference: a read that
starts behind the end of its file is an error there, while a system lets a program seek
behind the end and reads nothing (`interchangeable_iff`).
-/

namespace AccretionDb

open CrashLogic Posix

namespace RealFs

/-- The `Display` of an error. -/
def message : ErrorKind → String
  | .notFound => "No such file or directory (os error 2)"
  | .alreadyExists => "File exists (os error 17)"
  | .invalidInput => "Invalid argument (os error 22)"
  | .fileTooLarge => "File too large (os error 27)"
  | .writeZero => "failed to write whole buffer"

def mapIo (path : Path) : ErrorKind → StorageError
  | .notFound => .notFound path
  | .alreadyExists => .alreadyExists path
  | e => .io path (message e)

/-- `map_err` with `map_io`. -/
def mapErr {α : Type} (path : Path) (r : Except ErrorKind α) : Except StorageError α :=
  r.mapError (mapIo path)

def create (p : Path) (fs : Fs) : Except StorageError Unit × Fs :=
  match fs.openFile ⟨true, false⟩ p.name.render with
  | (.ok _, fs) => (.ok (), fs)
  | (.error e, fs) => (.error (mapIo p e), fs)

/-- Everything in the directory is a file, so what is there is one. -/
def «open» (p : Path) (fs : Fs) : Except StorageError Unit × Fs :=
  match fs.stat p.name.render with
  | .ok _ => (.ok (), fs)
  | .error _ => (.error (.notFound p), fs)

def append (k : Kernel) (p : Path) (data : Bytes) (fs : Fs) : Except StorageError Nat × Fs :=
  match fs.openFile ⟨false, true⟩ p.name.render with
  | (.error e, fs) => (.error (mapIo p e), fs)
  | (.ok h, fs) =>
    let offset := fs.size h
    match fs.writeAll k data h with
    | (.error e, fs) => (.error (mapIo p e), fs)
    | (.ok (), fs) => (.ok offset, fs)

def writeAt (k : Kernel) (p : Path) (offset : Nat) (data : Bytes) (fs : Fs) :
    Except StorageError Unit × Fs :=
  match fs.openFile ⟨false, false⟩ p.name.render with
  | (.error e, fs) => (.error (mapIo p e), fs)
  | (.ok h, fs) =>
    let len := fs.size h
    if len < offset ∨ len < offset + data.length then (.error (.outOfBounds p offset len), fs)
    else
      match h.seek k offset with
      | .error e => (.error (mapIo p e), fs)
      | .ok h =>
        match fs.writeAll k data h with
        | (.error e, fs) => (.error (mapIo p e), fs)
        | (.ok (), fs) => (.ok (), fs)

/-- The loop of `read_at`, with `want` bytes of the buffer left to fill.  A call that was
interrupted is made again and has no effect. -/
def fill (k : Kernel) (want : Nat) (h : Handle) (fs : Fs) : Bytes × Fs :=
  if hw : want = 0 then ([], fs)
  else
    let (chunk, h', fs') := fs.read k h want
    if hc : chunk = [] then ([], fs')
    else
      have hlt : want - chunk.length < want := by
        have hpos := List.length_pos_iff.mpr hc
        omega
      let (rest, fs'') := fill k (want - chunk.length) h' fs'
      (chunk ++ rest, fs'')
termination_by want

def readAt (k : Kernel) (p : Path) (offset len : Nat) (fs : Fs) : Except StorageError Bytes × Fs :=
  match fs.openFile ⟨false, false⟩ p.name.render with
  | (.error e, fs) => (.error (mapIo p e), fs)
  | (.ok h, fs) =>
    match h.seek k offset with
    | .error e => (.error (mapIo p e), fs)
    | .ok h =>
      let (b, fs) := fill k len h fs
      (.ok b, fs)

/-- What `sync_data` does shows after a power loss only. -/
def syncFile (p : Path) (fs : Fs) : Except StorageError Unit × Fs :=
  match fs.openFile ⟨false, false⟩ p.name.render with
  | (.error e, fs) => (.error (mapIo p e), fs)
  | (.ok _, fs) => (.ok (), fs)

/-- The directory exists, and what `sync_all` does shows after a power loss only. -/
def syncDir (_ : Dir) (fs : Fs) : Except StorageError Unit × Fs := (.ok (), fs)

def rename (src dst : Path) (fs : Fs) : Except StorageError Unit × Fs :=
  let (r, fs) := fs.rename src.name.render dst.name.render
  (mapErr src r, fs)

def delete (p : Path) (fs : Fs) : Except StorageError Unit × Fs :=
  let (r, fs) := fs.unlink p.name.render
  (mapErr p r, fs)

def list (k : Kernel) (dir : Dir) (fs : Fs) : Except StorageError (List Path) × Fs :=
  let (names, fs) := fs.readDir k
  let out := (names.map fun name => (⟨dir, .other name⟩ : Path)).filter fun p =>
    (fs.dir p.name.render).isSome
  (.ok (out.mergeSort Path.le), fs)

def len (p : Path) (fs : Fs) : Except StorageError Nat × Fs := (mapErr p (fs.stat p.name.render), fs)

/-- `impl Storage for RealFs`, on the files of one directory. -/
def run (k : Kernel) : (o : StorageOp) → Fs → o.Resp × Fs
  | .create p, fs => create p fs
  | .open p, fs => RealFs.open p fs
  | .append p data, fs => append k p data fs
  | .writeAt p offset data, fs => writeAt k p offset data fs
  | .readAt p offset len, fs => readAt k p offset len fs
  | .syncFile p, fs => syncFile p fs
  | .syncDir dir, fs => syncDir dir fs
  | .rename src dst, fs => rename src dst fs
  | .delete p, fs => delete p fs
  | .list dir, fs => list k dir fs
  | .len p, fs => len p fs

/-! ### What the calls do -/

/-- **The loop of `read_at` reads all there is**, in however many pieces. -/
theorem fill_eq (k : Kernel) : ∀ (want : Nat) (h : Handle) (fs : Fs),
    ∃ t, fill k want h fs = (slice (fs.data h.ino) h.pos want, { fs with clock := t }) := by
  intro want
  induction want using Nat.strong_induction_on with
  | h want ih =>
    intro h fs
    by_cases hw : want = 0
    · refine ⟨fs.clock, ?_⟩
      rw [fill, dif_pos hw, hw, slice_zero]
    · let n := min want (k.grant fs.clock + 1)
      have hn : 0 < n ∧ n ≤ want := by omega
      have hread : fs.read k h want =
          (slice (fs.data h.ino) h.pos n,
            { h with pos := h.pos + (slice (fs.data h.ino) h.pos n).length }, fs.tick) := rfl
      have hlen := length_slice (fs.data h.ino) h.pos n
      by_cases hc : slice (fs.data h.ino) h.pos n = []
      · refine ⟨fs.clock + 1, ?_⟩
        -- nothing is read at the end of the file only
        have hend : slice (fs.data h.ino) h.pos want = [] := by
          rw [hc, List.length_nil] at hlen
          rw [← List.length_eq_zero_iff, length_slice]
          omega
        rw [fill, dif_neg hw, hread]
        dsimp only
        rw [dif_pos hc, hend]
        rfl
      · have hpos := List.length_pos_iff.mpr hc
        obtain ⟨t, ht⟩ := ih (want - (slice (fs.data h.ino) h.pos n).length) (by omega)
          { h with pos := h.pos + (slice (fs.data h.ino) h.pos n).length } fs.tick
        refine ⟨t, ?_⟩
        rw [fill, dif_neg hw, hread]
        dsimp only
        rw [dif_neg hc, ht]
        exact congrArg (·, { fs with clock := t }) (slice_split _ _ hn.2)

theorem openFile_some {fs : Fs} {name : Bytes} {i : Nat} (hi : fs.dir name = some i)
    (append : Bool) : fs.openFile ⟨false, append⟩ name = (.ok ⟨i, 0, append⟩, fs) := by
  rw [Fs.openFile, hi]
  rfl

theorem openFile_none {fs : Fs} {name : Bytes} (hi : fs.dir name = none) (append : Bool) :
    fs.openFile ⟨false, append⟩ name = (.error .notFound, fs) := by
  rw [Fs.openFile, hi]
  rfl

end RealFs

/-- The call reads, and starts behind the end of its file. -/
def Files.Beyond (f : Files) : StorageOp → Prop
  | .readAt p offset _ => ∃ b ∈ f p.name.render, b.length < offset
  | _ => False

/-- No file grows larger than a file can be. -/
def Files.Room (max : Nat) (f : Files) : StorageOp → Prop
  | .append p data => ∀ b ∈ f p.name.render, b.length + data.length ≤ max
  | _ => True

instance decidableBeyond (f : Files) : (o : StorageOp) → Decidable (f.Beyond o)
  | .readAt p offset _ => inferInstanceAs (Decidable (∃ b ∈ f p.name.render, b.length < offset))
  | .create _ | .open _ | .append .. | .writeAt .. | .syncFile _ | .syncDir _ | .rename ..
  | .delete _ | .list _ | .len _ => .isFalse id

instance decidableRoom (max : Nat) (f : Files) : (o : StorageOp) → Decidable (f.Room max o)
  | .append p data =>
    inferInstanceAs (Decidable (∀ b ∈ f p.name.render, b.length + data.length ≤ max))
  | .create _ | .open _ | .writeAt .. | .readAt .. | .syncFile _ | .syncDir _ | .rename ..
  | .delete _ | .list _ | .len _ => .isTrue trivial

namespace RealFs

section Steps

variable {dir : Dir} {fs : Fs}

/-- New bytes for a file, as a loop of writes leaves them. -/
theorem sound_written {max : Nat} (hs : fs.Sound max) {name : Bytes} {i : Nat} (hi : fs.dir name = some i)
    {b : Bytes} (hb : b.length ≤ max) (t : Nat) :
    { fs.setData i b with clock := t }.Sound max ∧
      { fs.setData i b with clock := t }.content = Function.update fs.content name (some b) :=
  ⟨Fs.sound_clock (Fs.setData_sound hs i hb) t, Fs.content_setData hs hi b⟩

theorem append_does (k : Kernel) (hs : fs.Sound k.maxSize) (name : Bytes) (data : Bytes)
    (hroom : Files.Room k.maxSize fs.content (.append ⟨dir, .other name⟩ data)) :
    (append k ⟨dir, .other name⟩ data fs).2.Sound k.maxSize ∧
      Files.Does (.append ⟨dir, .other name⟩ data) fs.content
        (append k ⟨dir, .other name⟩ data fs).1 (append k ⟨dir, .other name⟩ data fs).2.content := by
  cases hi : fs.dir name with
  | none =>
    simp only [append, Files.Does, Files.run, FileName.render, openFile_none hi,
      Fs.content_none hi]
    exact ⟨hs, rfl⟩
  | some i =>
    have hfit : (fs.data i ++ data).length ≤ k.maxSize := by
      rw [List.length_append]
      exact hroom _ (Fs.content_some hi)
    obtain ⟨t, ht⟩ := Fs.writeAll_eq k data ⟨i, 0, true⟩ fs (Nat.le_refl _)
      (by rwa [List.length_append] at hfit)
    rw [show fs.writePos ⟨i, 0, true⟩ = (fs.data i).length from rfl, overwrite_end] at ht
    simp only [append, Files.Does, Files.run, FileName.render, openFile_some hi, ht,
      Fs.content_some hi]
    obtain ⟨hsound, hcontent⟩ := sound_written hs hi hfit t
    exact ⟨hsound, congrArg _ hcontent⟩

theorem writeAt_does (k : Kernel) (hs : fs.Sound k.maxSize) (name : Bytes) (offset : Nat) (data : Bytes) :
    (writeAt k ⟨dir, .other name⟩ offset data fs).2.Sound k.maxSize ∧
      Files.Does (.writeAt ⟨dir, .other name⟩ offset data) fs.content
        (writeAt k ⟨dir, .other name⟩ offset data fs).1
        (writeAt k ⟨dir, .other name⟩ offset data fs).2.content := by
  cases hi : fs.dir name with
  | none =>
    simp only [writeAt, Files.Does, Files.run, FileName.render, openFile_none hi,
      Fs.content_none hi]
    exact ⟨hs, rfl⟩
  | some i =>
    simp only [writeAt, Files.Does, Files.run, FileName.render, openFile_some hi,
      Fs.content_some hi, Fs.size]
    by_cases hout : (fs.data i).length < offset ∨ (fs.data i).length < offset + data.length
    · simp only [hout, if_true]
      exact ⟨hs, trivial⟩
    · simp only [hout, if_false]
      have hsize := hs.size i
      have hle : offset ≤ (fs.data i).length := by omega
      have hseek : Handle.seek k ⟨i, 0, false⟩ offset = .ok ⟨i, offset, false⟩ := by
        rw [Handle.seek, if_neg (by omega)]
      obtain ⟨t, ht⟩ := Fs.writeAll_eq k data ⟨i, offset, false⟩ fs hle
        (show offset + data.length ≤ k.maxSize by omega)
      rw [show fs.writePos ⟨i, offset, false⟩ = offset from rfl] at ht
      have hlen := length_overwrite hle data
      obtain ⟨hsound, hcontent⟩ := sound_written hs hi
        (show (overwrite (fs.data i) offset data).length ≤ k.maxSize by omega) t
      simp only [hseek, ht]
      rw [overwrite_eq hle] at hsound hcontent ⊢
      exact ⟨hsound, congrArg _ hcontent⟩

theorem readAt_does (k : Kernel) (hs : fs.Sound k.maxSize) (name : Bytes) (offset len : Nat)
    (hin : ¬ Files.Beyond fs.content (.readAt ⟨dir, .other name⟩ offset len)) :
    (readAt k ⟨dir, .other name⟩ offset len fs).2.Sound k.maxSize ∧
      Files.Does (.readAt ⟨dir, .other name⟩ offset len) fs.content
        (readAt k ⟨dir, .other name⟩ offset len fs).1
        (readAt k ⟨dir, .other name⟩ offset len fs).2.content := by
  cases hi : fs.dir name with
  | none =>
    simp only [readAt, Files.Does, Files.run, FileName.render, openFile_none hi,
      Fs.content_none hi]
    exact ⟨hs, rfl⟩
  | some i =>
    have hle : ¬ (fs.data i).length < offset := fun h => hin ⟨_, Fs.content_some hi, h⟩
    have hsize := hs.size i
    have hseek : Handle.seek k ⟨i, 0, false⟩ offset = .ok ⟨i, offset, false⟩ := by
      rw [Handle.seek, if_neg (by omega)]
    obtain ⟨t, ht⟩ := fill_eq k len ⟨i, offset, false⟩ fs
    simp only [readAt, Files.Does, Files.run, FileName.render, openFile_some hi, hseek, ht,
      Fs.content_some hi, if_neg hle]
    exact ⟨Fs.sound_clock hs t, rfl⟩

/-- **Behind the end a system reads nothing**, or refuses the offset. -/
theorem readAt_beyond (k : Kernel) (hs : fs.Sound k.maxSize) {o : StorageOp}
    (hb : Files.Beyond fs.content o) :
    (run k o fs).2.Sound k.maxSize ∧ (run k o fs).2.content = (Files.run o fs.content).2 ∧
      (run k o fs).1 ≠ (Files.run o fs.content).1 := by
  cases o with
  | readAt p offset len =>
    obtain ⟨b, hb, hlt⟩ := hb
    cases hi : fs.dir p.name.render with
    | none =>
      rw [Fs.content_none hi] at hb
      cases hb
    | some i =>
      rw [Fs.content_some hi] at hb
      cases hb
      simp only [run, readAt, Files.run, openFile_some hi, Fs.content_some hi, if_pos hlt]
      by_cases hmax : k.maxSize < offset
      · simp only [Handle.seek, if_pos hmax]
        exact ⟨hs, trivial, fun h => by cases h⟩
      · obtain ⟨t, ht⟩ := fill_eq k len ⟨i, offset, false⟩ fs
        simp only [Handle.seek, if_neg hmax, ht]
        exact ⟨Fs.sound_clock hs t, rfl, fun h => by cases h⟩
  | _ => exact absurd hb id

theorem list_does (k : Kernel) (hs : fs.Sound k.maxSize) :
    (list k dir fs).2.Sound k.maxSize ∧
      Files.Does (.list dir) fs.content (list k dir fs).1 (list k dir fs).2.content := by
  refine ⟨Fs.sound_clock hs _, ⟨_, rfl, ?_, ?_, ?_⟩, rfl⟩
  · refine @List.pairwise_mergeSort _ Path.le (fun _ _ _ => Path.le_trans) (fun p q => ?_) _
    rw [Bool.or_eq_true]
    exact Path.le_total p q
  · have hnames : (k.order fs.clock fs.names).Nodup :=
      (k.order_perm fs.clock fs.names).nodup_iff.mpr hs.nodup
    have hpaths : ((k.order fs.clock fs.names).map fun name =>
        (⟨dir, .other name⟩ : Path)).Nodup :=
      List.Pairwise.map _ (fun a b hne h => hne (FileName.other.inj (Path.mk.inj h).2)) hnames
    exact (List.mergeSort_perm _ _).nodup_iff.mpr (hpaths.filter _)
  · intro p
    rw [(List.mergeSort_perm _ _).mem_iff, List.mem_filter, List.mem_map]
    constructor
    · rintro ⟨⟨name, -, rfl⟩, hsome⟩
      refine ⟨name, rfl, ?_⟩
      rw [Fs.content, Option.isSome_map]
      exact hsome
    · rintro ⟨name, rfl, hsome⟩
      rw [Fs.content, Option.isSome_map] at hsome
      have hmem : name ∈ k.order fs.clock fs.names :=
        (k.order_perm fs.clock fs.names).mem_iff.mpr ((hs.mem name).mpr hsome)
      exact ⟨⟨name, hmem, rfl⟩, hsome⟩

/-- **The real file system does what there is to do**, unless it reads behind an end. -/
theorem run_does (k : Kernel) (hs : fs.Sound k.maxSize) {o : StorageOp} (ho : o.Within dir)
    (hroom : Files.Room k.maxSize fs.content o) (hin : ¬ Files.Beyond fs.content o) :
    (run k o fs).2.Sound k.maxSize ∧ Files.Does o fs.content (run k o fs).1 (run k o fs).2.content := by
  cases o with
  | create p =>
    obtain ⟨name, rfl, -⟩ := ho
    cases hi : fs.dir name with
    | some i =>
      simp only [run, create, Files.Does, Files.run, FileName.render, Fs.openFile, hi,
        Fs.content_some hi, if_true]
      exact ⟨hs, rfl⟩
    | none =>
      simp only [run, create, Files.Does, Files.run, FileName.render, Fs.openFile, hi,
        Fs.content_none hi, if_true]
      exact ⟨Fs.addFile_sound hs hi, congrArg _ (Fs.content_addFile hs name)⟩
  | «open» p =>
    obtain ⟨name, rfl, -⟩ := ho
    cases hi : fs.dir name with
    | some i =>
      simp only [run, RealFs.open, Files.Does, Files.run, FileName.render, Fs.stat, hi,
        Fs.content_some hi]
      exact ⟨hs, trivial⟩
    | none =>
      simp only [run, RealFs.open, Files.Does, Files.run, FileName.render, Fs.stat, hi,
        Fs.content_none hi]
      exact ⟨hs, trivial⟩
  | append p data =>
    obtain ⟨name, rfl, -⟩ := ho
    exact append_does k hs name data hroom
  | writeAt p offset data =>
    obtain ⟨name, rfl, -⟩ := ho
    exact writeAt_does k hs name offset data
  | readAt p offset len =>
    obtain ⟨name, rfl, -⟩ := ho
    exact readAt_does k hs name offset len hin
  | syncFile p =>
    obtain ⟨name, rfl, -⟩ := ho
    cases hi : fs.dir name with
    | some i =>
      simp only [run, syncFile, Files.Does, Files.run, FileName.render, openFile_some hi,
        Fs.content_some hi]
      exact ⟨hs, trivial⟩
    | none =>
      simp only [run, syncFile, Files.Does, Files.run, FileName.render, openFile_none hi,
        Fs.content_none hi]
      exact ⟨hs, rfl⟩
  | syncDir d => exact ⟨hs, rfl⟩
  | rename src dst =>
    obtain ⟨⟨a, rfl, -⟩, b, rfl, -⟩ := ho
    cases hi : fs.dir a with
    | some i =>
      simp only [run, rename, Files.Does, Files.run, FileName.render, Fs.rename, hi,
        Fs.content_some hi]
      by_cases hab : a = b
      · simp only [hab, if_true]
        exact ⟨hs, rfl⟩
      · have hpath : ¬ (⟨dir, .other a⟩ : Path) = ⟨dir, .other b⟩ := fun h =>
          hab (FileName.other.inj (Path.mk.inj h).2)
        simp only [hab, hpath, if_false, ← Fs.content_some hi]
        exact ⟨Fs.moveName_sound hs hi hab, congrArg _ (Fs.content_moveName hi)⟩
    | none =>
      simp only [run, rename, Files.Does, Files.run, FileName.render, Fs.rename, hi,
        Fs.content_none hi]
      exact ⟨hs, rfl⟩
  | delete p =>
    obtain ⟨name, rfl, -⟩ := ho
    cases hi : fs.dir name with
    | some i =>
      simp only [run, delete, Files.Does, Files.run, FileName.render, Fs.unlink, hi,
        Fs.content_some hi]
      exact ⟨Fs.dropName_sound hs name, congrArg _ (Fs.content_dropName fs name)⟩
    | none =>
      simp only [run, delete, Files.Does, Files.run, FileName.render, Fs.unlink, hi,
        Fs.content_none hi]
      exact ⟨hs, rfl⟩
  | list d =>
    subst ho
    exact list_does k hs
  | len p =>
    obtain ⟨name, rfl, -⟩ := ho
    cases hi : fs.dir name with
    | some i =>
      simp only [run, len, Files.Does, Files.run, FileName.render, Fs.stat, hi,
        Fs.content_some hi]
      exact ⟨hs, rfl⟩
    | none =>
      simp only [run, len, Files.Does, Files.run, FileName.render, Fs.stat, hi,
        Fs.content_none hi]
      exact ⟨hs, rfl⟩

end Steps

end RealFs

/-! ### Sequences of calls -/

/-- The calls of a sequence with what they return, and the state they leave. -/
def trace {S : Type} (run : (o : StorageOp) → S → o.Resp × S) :
    List StorageOp → S → List (Sigma StorageOp.Resp) × S
  | [], s => ([], s)
  | o :: os, s =>
    let (r, s') := run o s
    let (rs, s'') := trace run os s'
    (⟨o, r⟩ :: rs, s'')

namespace Files

/-- No file of the sequence grows larger than a file can be. -/
def Fits (max : Nat) : List StorageOp → Files → Prop
  | [], _ => True
  | o :: os, f => f.Room max o ∧ Fits max os (run o f).2

/-- No read of the sequence starts behind the end that its file has by then. -/
def ReadsInside : List StorageOp → Files → Prop
  | [], _ => True
  | o :: os, f => ¬ f.Beyond o ∧ ReadsInside os (run o f).2

instance decidableFits (max : Nat) : (ops : List StorageOp) → (f : Files) →
    Decidable (Fits max ops f)
  | [], _ => .isTrue trivial
  | o :: os, f =>
    have := decidableFits max os (run o f).2
    inferInstanceAs (Decidable (f.Room max o ∧ Fits max os (run o f).2))

instance decidableReadsInside : (ops : List StorageOp) → (f : Files) → Decidable (ReadsInside ops f)
  | [], _ => .isTrue trivial
  | o :: os, f =>
    have := decidableReadsInside os (run o f).2
    inferInstanceAs (Decidable (¬ f.Beyond o ∧ ReadsInside os (run o f).2))

end Files

/-- The two backends, both empty at first, return the same and then hold the same files. -/
def Interchangeable (rng : Nat → Nat) (k : Kernel) (dir : Dir) (ops : List StorageOp) : Prop :=
  (trace SimFs.run ops (.new rng)).1 = (trace (RealFs.run k) ops .empty).1 ∧
    (trace SimFs.run ops (.new rng)).2.view dir = (trace (RealFs.run k) ops .empty).2.content

/-- Step by step, the results agree as long as no read starts behind an end, and the
files agree in any case. -/
theorem trace_agree (k : Kernel) {dir : Dir} (ops : List StorageOp) : ∀ {s : SimFs} {fs : Fs},
    s.Running dir → fs.Sound k.maxSize → s.view dir = fs.content → (∀ o ∈ ops, o.Within dir) →
    Files.Fits k.maxSize ops fs.content →
    ((trace SimFs.run ops s).1 = (trace (RealFs.run k) ops fs).1 ↔
      Files.ReadsInside ops fs.content) ∧
    (trace SimFs.run ops s).2.view dir = (trace (RealFs.run k) ops fs).2.content := by
  induction ops with
  | nil => exact fun _ _ hview _ _ => ⟨iff_of_true rfl trivial, hview⟩
  | cons o os ih =>
    intro s fs hs hfs hview hin hfit
    obtain ⟨hs', hsim⟩ := SimFs.run_does hs (hin o List.mem_cons_self)
    have heffect := hsim.effect
    rw [hview] at hsim heffect
    have hos : ∀ o ∈ os, o.Within dir := fun x hx => hin x (List.mem_cons_of_mem _ hx)
    by_cases hb : Files.Beyond fs.content o
    · obtain ⟨hfs', hcontent, hne⟩ := RealFs.readAt_beyond k hfs hb
      obtain ⟨-, hend⟩ := ih hs' hfs' (heffect.trans hcontent.symm) hos (hcontent ▸ hfit.2)
      refine ⟨iff_of_false (fun h => hne ?_) fun h => h.1 hb, hend⟩
      have hres : (SimFs.run o s).1 = (RealFs.run k o fs).1 :=
        eq_of_heq (Sigma.mk.inj (List.cons.inj h).1).2
      rw [← hres]
      exact hsim.result fun d hd => by rw [hd] at hb; exact hb
    · obtain ⟨hfs', hreal⟩ := RealFs.run_does k hfs (hin o List.mem_cons_self) hfit.1 hb
      have hcontent := hreal.effect
      obtain ⟨hiff, hend⟩ := ih hs' hfs' (heffect.trans hcontent.symm) hos (hcontent ▸ hfit.2)
      refine ⟨?_, hend⟩
      have hres := hsim.unique hreal
      rw [hcontent] at hiff
      simp only [trace, Files.ReadsInside, hb, not_false_eq_true, true_and, ← hiff]
      rw [hres]
      exact ⟨fun h => (List.cons.inj h).2, fun h => congrArg _ h⟩

/-- **The backends are interchangeable exactly if no read starts behind the end of its
file.** -/
theorem interchangeable_iff (rng : Nat → Nat) (k : Kernel) {dir : Dir} {ops : List StorageOp}
    (hin : ∀ o ∈ ops, o.Within dir) (hfit : Files.Fits k.maxSize ops Files.empty) :
    Interchangeable rng k dir ops ↔ Files.ReadsInside ops Files.empty := by
  obtain ⟨hiff, hend⟩ := trace_agree k ops (SimFs.new_running dir rng) Fs.empty_sound rfl hin hfit
  exact ⟨fun h => hiff.mp h.1, fun h => ⟨hiff.mpr h, hend⟩⟩

/-- A system that names the entries of a directory in the order it has them, and moves one
byte at a time. -/
def slowKernel : Kernel :=
  ⟨fun _ names => names, fun _ names => .refl names, fun _ => 0, 2 ^ 63 - 4097, by decide⟩

/-- The files `a` and `b` of a directory. -/
def fileA : Path := ⟨[100], .other [97]⟩
def fileB : Path := ⟨[100], .other [98]⟩

theorem fileA_inside : fileA.Inside [100] := ⟨[97], rfl, by decide, by decide, by decide, by decide,
  by decide⟩

theorem fileB_inside : fileB.Inside [100] := ⟨[98], rfl, by decide, by decide, by decide, by decide,
  by decide⟩

/-- Every method once, and reads up to the end. -/
def everyCall : List StorageOp :=
  [.create fileB, .create fileA, .create fileA, .append fileA [1, 2, 3], .writeAt fileA 1 [7, 8],
    .writeAt fileA 2 [7, 8], .readAt fileA 1 9, .readAt fileA 3 1, .syncFile fileA, .syncDir [100],
    .list [100], .rename fileA fileB, .open fileA, .len fileB, .delete fileB, .list [100]]

theorem interchangeable_everyCall : Interchangeable (fun _ => 0) slowKernel [100] everyCall := by
  have hA := fileA_inside
  have hB := fileB_inside
  refine (interchangeable_iff _ slowKernel ?_ ?_).mpr ?_
  · simp only [everyCall, List.forall_mem_cons, StorageOp.Within, hA, hB, and_self,
      List.not_mem_nil, false_implies, implies_true]
  · decide
  · decide

/-- A read of one byte behind the end of an empty file: one backend fails, the other reads
nothing. -/
theorem not_interchangeable :
    ¬ Interchangeable (fun _ => 0) slowKernel [100] [.create fileA, .readAt fileA 1 1] := by
  intro h
  have hin : ∀ o ∈ [StorageOp.create fileA, .readAt fileA 1 1], o.Within [100] := by
    simp only [List.forall_mem_cons, StorageOp.Within, fileA_inside, and_self, List.not_mem_nil,
      false_implies, implies_true]
  have hiff := (trace_agree slowKernel _ (SimFs.new_running [100] fun _ => 0) Fs.empty_sound rfl hin
    (by decide)).1
  exact absurd (hiff.mp h.1) (by decide)

end AccretionDb
