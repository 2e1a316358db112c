import AccretionDb.Compaction.Table
import AccretionDb.Lib.Runs

/-! # Adds that fail, and the table behind them

An `add` fails because its key is not behind the last one, and then it has changed
nothing, or because the append of the block it seals fails.  In the second case the CRC
is behind the entries of the block already, and it stays there: the next seal writes the
block with both CRCs, and a reader takes the first one for the head of an entry.  Such a
block is a scar, and a table with a scar never gives back what was added
(`holdsExactly_iff`).
-/

namespace AccretionDb

open CrashLogic

namespace SimFs

/-- The simulator during one call: an append fails with the error, if there is one, and
then has no effect. -/
def failing (fault : Option StorageError) : Sem StorageOp StorageOp.Resp SimFs where
  safe _ _ := True
  step
    | .append p data, s, r, s' =>
      match fault with
      | none => (r, s') = run (.append p data) s
      | some err => r = .error err ∧ s' = s
    | o, s, r, s' => (r, s') = run o s

theorem failing_none_step {o : StorageOp} {s s' : SimFs} {r : o.Resp}
    (h : (failing none).step o s r s') : (r, s') = run o s := by
  cases o <;> exact h

theorem failing_none_simulates :
    Simulates (failing none) (Disk.sem Faults.none) Tidy disk where
  safe _ _ _ _ := trivial
  step o s r s' hs hsafe h := by
    refine (sem_simulates Faults.none).step o s r s' hs hsafe ?_
    have hrun := failing_none_step h
    cases o <;> exact .inl hrun

/-- What holds of all runs on the abstract storage holds of a run in which nothing
fails. -/
theorem runs_disk {M ε α : Type} {strict H : Prop} {C : Disk × M → Prop} {p : Io M ε α}
    {Q : α → Disk × M → Prop} {R : ε → Disk × M → Prop} {s s' : SimFs} {m m' : M}
    {r : Except ε α} (hs : s.Tidy)
    (h : wpE (Disk.sem Faults.none) strict H C p Q R (s.disk, m))
    (hr : Runs (failing none) strict p (s, m) r (s', m')) :
    s'.Tidy ∧ outcome Q R r (s'.disk, m') := by
  have hwp := wp_of_simulates (memSem_simulates failing_none_simulates strict)
    (s := (s, m)) hs (wpE_iff.mp h)
  have hend := wp_completes hwp hr
  exact ⟨hend.1.1, hend.2⟩

end SimFs

/-- A call of `add`, and the error with which an append of this call fails, if it does. -/
structure AddCall where
  entry : TableEntry
  fault : Option StorageError

/-- The entries whose `add` returned `Ok`. -/
def keptEntries : List AddCall → List (Except SsTableError Unit) → List TableEntry
  | c :: cs, .ok () :: rs => c.entry :: keptEntries cs rs
  | _ :: cs, .error _ :: rs => keptEntries cs rs
  | _, _ => []

@[simp] theorem keptEntries_nil : keptEntries [] [] = [] := rfl

@[simp] theorem keptEntries_error (c : AddCall) (e : SsTableError) :
    keptEntries [c] [.error e] = [] := rfl

theorem keptEntries_cons (c : AddCall) (cs : List AddCall) (r : Except SsTableError Unit)
    (rs : List (Except SsTableError Unit)) :
    keptEntries (c :: cs) (r :: rs) = keptEntries [c] [r] ++ keptEntries cs rs := by
  cases r <;> rfl

/-- The key is not behind the last one. -/
def KeyLate (es : List TableEntry) (x : TableEntry) : Prop := ∃ y ∈ es.getLast?, x.key ≤ y.key

instance (es : List TableEntry) (x : TableEntry) : Decidable (KeyLate es x) :=
  inferInstanceAs (Decidable (∃ y ∈ es.getLast?, x.key ≤ y.key))

/-- Behind these entries, no call whose append fails has a block to seal. -/
def SealsHold : List TableEntry → List AddCall → Prop
  | _, [] => True
  | es, c :: cs =>
    if KeyLate es c.entry then SealsHold es cs
    else ¬ (c.fault.isSome ∧ (blocksOf es).Crowded c.entry) ∧ SealsHold (es ++ [c.entry]) cs

instance decidableSealsHold : (es : List TableEntry) → (calls : List AddCall) →
    Decidable (SealsHold es calls)
  | _, [] => isTrue trivial
  | es, c :: cs =>
    have := decidableSealsHold es cs
    have := decidableSealsHold (es ++ [c.entry]) cs
    inferInstanceAs (Decidable (if KeyLate es c.entry then _ else _))

section Runs

variable [TableHashing]

/-- Calls of `add` one after the other, whatever they return. -/
inductive AddRun : List AddCall → SimFs × SsTableBuilder → List (Except SsTableError Unit) →
    SimFs × SsTableBuilder → Prop
  | nil (σ : SimFs × SsTableBuilder) : AddRun [] σ [] σ
  | cons {c : AddCall} {cs : List AddCall} {r : Except SsTableError Unit}
    {rs : List (Except SsTableError Unit)} {σ σ₁ σ₂ : SimFs × SsTableBuilder}
    (hadd : Runs (SimFs.failing c.fault) True
      (SsTableBuilder.add c.entry.key c.entry.seq c.entry.value) σ r σ₁)
    (hrest : AddRun cs σ₁ rs σ₂) : AddRun (c :: cs) σ (r :: rs) σ₂

/-- A builder is made, the calls return `rs`, and `finish` returns `Ok`, so that none of
its own calls failed.  No length is narrowed on the way. -/
def TableRun (path : Path) (n : FilterSize) (calls : List AddCall) (fs : SimFs)
    (rs : List (Except SsTableError Unit)) (fs' : SimFs) : Prop :=
  ∃ b fs₀ fs₁ b₁ summary b',
    Runs (SimFs.failing none) True (SsTableBuilder.new path n.expectedKeys n.bitsPerKey) (fs, ())
      (.ok b) (fs₀, ()) ∧
    AddRun calls (fs₀, b) rs (fs₁, b₁) ∧
    Runs (SimFs.failing none) True SsTableBuilder.finish (fs₁, b₁) (.ok summary) (fs', b')

/-- The table opens, `iter` yields these entries in order, and `get` finds each of them
and no other. -/
def HoldsExactly (fs : SimFs) (path : Path) (es : List TableEntry) : Prop :=
  ∀ key, ∃ fs', SimFs.exec (readBack path key) fs () =
    some (.ok (es.map .ok, SsTableReader.searchBlock es key), fs', ())

/-! ### One call -/

/-- The file that the builder appends to. -/
structure FileAt (d : Disk) (path : Path) (data : Bytes) (fs : SimFs) : Prop where
  tidy : fs.Tidy
  disk : fs.disk = d.put path ⟨[], data⟩

omit [TableHashing] in
theorem FileAt.append {d : Disk} {path : Path} {data : Bytes} {fs : SimFs}
    (h : FileAt d path data fs) (x : Bytes) : ∃ off fs',
      SimFs.run (.append path x) fs = (.ok off, fs') ∧ FileAt d path (data ++ x) fs' := by
  have hlive : (fs.disk path).live = some ⟨[], data⟩ := by rw [h.disk, Disk.live_put]
  rw [SimFs.disk, SimFs.live_slot, Option.map_eq_some_iff] at hlive
  obtain ⟨i, hi, -⟩ := hlive
  obtain ⟨htidy, hdisk⟩ := SimFs.append_refines h.tidy hi x
  refine ⟨(fs.inodes i).live.length, (fs.append path x).2, ?_, htidy, ?_⟩
  · rw [SimFs.run, SimFs.append, hi]
  · rw [hdisk, h.disk, Disk.edit_put]
    rfl

omit [TableHashing] in
/-- An append that does not fail has one run. -/
theorem FileAt.runs_append {M : Type} {m : M} {d : Disk} {path : Path} {data : Bytes} {fs : SimFs}
    (hat : FileAt d path data fs) (x : Bytes) : ∃ off fs', FileAt d path (data ++ x) fs' ∧
      ∀ {r : Except SsTableError Nat} {σ : SimFs × M}, Runs (SimFs.failing none) True
        ((storage (.append path x)).mapError SsTableError.storage) (fs, m) r σ ↔
          r = .ok off ∧ σ = (fs', m) := by
  obtain ⟨off, fs', hrun, hat'⟩ := hat.append x
  refine ⟨off, fs', hat', fun {r σ} => ?_⟩
  rw [Runs.mapError_iff]
  constructor
  · rintro ⟨r', rfl, happ⟩
    obtain ⟨s', m'⟩ := σ
    obtain ⟨hstep, rfl⟩ := Runs.device_iff.mp happ
    obtain ⟨rfl, rfl⟩ := Prod.mk.inj ((SimFs.failing_none_step hstep).trans hrun)
    exact ⟨rfl, rfl⟩
  · rintro ⟨rfl, rfl⟩
    exact ⟨.ok off, rfl, Runs.device_iff.mpr ⟨hrun.symm, rfl⟩⟩

namespace SsTableBuilder

variable {S : Type} {F : Sem StorageOp StorageOp.Resp S} {strict : Prop} {s : S}
variable {b : SsTableBuilder} {key : Bytes} {seq : Nat} {value : Value}
variable {r : Except SsTableError Unit} {σ : S × SsTableBuilder}

/-- A key that is not behind the last one changes nothing. -/
theorem runs_add_late (hlate : b.Late key) :
    Runs F strict (add key seq value) (s, b) r σ ↔ r = .error .unsorted ∧ σ = (s, b) := by
  rw [add, Runs.get_bind, if_pos hlate, Runs.throw_iff, eq_comm, @eq_comm _ σ]

/-- The entry goes to the open block. -/
theorem runs_push : Runs F strict (do
      Act.fits (LengthsFit key value)
      let b ← Act.get
      match b.bloom.insert key with
      | none => Act.hang
      | some bloom => Act.modify (push key seq value bloom)) (s, b) r σ ↔
    ∃ bloom, b.bloom.insert key = some bloom ∧ (strict → LengthsFit key value) ∧ r = .ok () ∧
      σ = (s, b.push key seq value bloom) := by
  rw [Runs.fits_bind, Runs.get_bind]
  dsimp only
  cases hbloom : b.bloom.insert key with
  | none =>
    constructor
    · exact fun ⟨_, h⟩ => absurd h Runs.not_hang
    · rintro ⟨bloom, h, -⟩
      cases h
  | some bloom =>
    dsimp only
    rw [Runs.modify_iff]
    constructor
    · exact fun ⟨hfit, hr, hσ⟩ => ⟨bloom, rfl, hfit, hr, hσ⟩
    · rintro ⟨bloom', h, hend⟩
      cases h
      exact hend

theorem runs_add_roomy (hlate : ¬ b.Late key) (hroom : ¬ b.Crowded key value) :
    Runs F strict (add key seq value) (s, b) r σ ↔
      ∃ bloom, b.bloom.insert key = some bloom ∧ (strict → LengthsFit key value) ∧ r = .ok () ∧
        σ = (s, b.push key seq value bloom) := by
  rw [add, Runs.get_bind, if_neg hlate]
  dsimp only
  rw [if_neg hroom]
  exact runs_push

theorem runs_add_crowded (hlate : ¬ b.Late key) (hcrowd : b.Crowded key value) :
    Runs F strict (add key seq value) (s, b) r σ ↔
      (∃ s₁ b₁ bloom, Runs F strict sealBlock (s, b) (.ok ()) (s₁, b₁) ∧
        b₁.bloom.insert key = some bloom ∧ (strict → LengthsFit key value) ∧ r = .ok () ∧
        σ = (s₁, b₁.push key seq value bloom)) ∨
      ∃ e, r = .error e ∧ Runs F strict sealBlock (s, b) (.error e) σ := by
  rw [add, Runs.get_bind, if_neg hlate]
  dsimp only
  rw [if_pos hcrowd, Runs.bind_iff]
  refine or_congr_left ⟨?_, ?_⟩
  · rintro ⟨_, ⟨s₁, b₁⟩, hseal, h⟩
    obtain ⟨bloom, hpush⟩ := runs_push.mp h
    exact ⟨s₁, b₁, bloom, hseal, hpush⟩
  · rintro ⟨s₁, b₁, bloom, hseal, hpush⟩
    exact ⟨(), (s₁, b₁), hseal, runs_push.mpr ⟨bloom, hpush⟩⟩

/-- **The append fails, and the CRC is in the block.** -/
theorem runs_sealBlock_fail {err : StorageError} {fs : SimFs} {σ : SimFs × SsTableBuilder}
    (hne : b.block ≠ []) :
    Runs (SimFs.failing (some err)) strict sealBlock (fs, b) r σ ↔
      (strict → (withCrc b.block).length < 2 ^ 32) ∧ r = .error (.storage err) ∧
        σ = (fs, { b with block := withCrc b.block }) := by
  rw [sealBlock, Runs.get_bind, if_neg hne, Runs.modify_bind, Runs.fits_bind, Runs.bind_iff]
  refine and_congr_right fun _ => ⟨?_, ?_⟩
  · rintro (⟨off, σ', happ, -⟩ | ⟨e, rfl, happ⟩)
    · obtain ⟨r', hr', happ⟩ := Runs.mapError_iff.mp happ
      obtain ⟨⟨rfl, -⟩, -⟩ := Runs.device_iff.mp happ
      cases hr'
    · obtain ⟨r', hr', happ⟩ := Runs.mapError_iff.mp happ
      obtain ⟨s', b'⟩ := σ
      obtain ⟨⟨rfl, hs⟩, hb⟩ := Runs.device_iff.mp happ
      dsimp only at hs hb
      rw [hs, hb]
      cases hr'
      exact ⟨rfl, rfl⟩
  · rintro ⟨rfl, rfl⟩
    exact .inr ⟨_, rfl, Runs.mapError_iff.mpr ⟨.error err, rfl, Runs.device_iff.mpr ⟨⟨rfl, rfl⟩, rfl⟩⟩⟩

/-- The block is written, and its handle is in the index. -/
theorem runs_sealBlock_ok {d : Disk} {data : Bytes} {fs : SimFs} {first : Bytes}
    (hne : b.block ≠ []) (hfirst : b.blockFirstKey = some first) (hat : FileAt d b.path data fs) :
    ∃ fs', FileAt d b.path (data ++ withCrc b.block) fs' ∧ ∀ {r} {σ : SimFs × SsTableBuilder},
      Runs (SimFs.failing none) True sealBlock (fs, b) r σ ↔
        (withCrc b.block).length < 2 ^ 32 ∧ r = .ok () ∧
          σ = (fs', { b with
            offset := b.offset + (withCrc b.block).length
            index := b.index ++ [⟨first, b.offset, (withCrc b.block).length⟩]
            blockFirstKey := none
            block := [] }) := by
  obtain ⟨off, fs', hat', happ⟩ := hat.runs_append (m := { b with block := withCrc b.block })
    (withCrc b.block)
  refine ⟨fs', hat', fun {r σ} => ?_⟩
  rw [sealBlock, Runs.get_bind, if_neg hne, Runs.modify_bind, Runs.fits_bind, true_implies]
  refine and_congr_right fun hlen => ?_
  rw [Runs.bind_iff]
  dsimp only
  rw [Nat.mod_eq_of_lt hlen]
  constructor
  · rintro (⟨a, σ₁, happ₁, h⟩ | ⟨e, rfl, happ₁⟩)
    · obtain ⟨-, rfl⟩ := happ.mp happ₁
      rw [hfirst] at h
      exact Runs.modify_iff.mp h
    · cases (happ.mp happ₁).1
  · refine fun h => .inl ⟨off, _, happ.mpr ⟨rfl, rfl⟩, ?_⟩
    rw [hfirst]
    exact Runs.modify_iff.mpr h

end SsTableBuilder

/-- Blocks, an index, a filter and the footer that says where they are. -/
def fileOf (data : Bytes) (index : List BlockHandle) (bloom : BloomFilter) (numEntries : Nat) :
    Bytes :=
  data ++ withCrc (encodeIndex index) ++ withCrc bloom.encode ++
    withCrc (Footer.encode
      ⟨data.length, (withCrc (encodeIndex index)).length,
        data.length + (withCrc (encodeIndex index)).length, (withCrc bloom.encode).length,
        numEntries⟩)

omit [TableHashing] in
theorem FileAt.runs_syncFile {M : Type} {m : M} {d : Disk} {path : Path} {data : Bytes} {fs : SimFs}
    (hat : FileAt d path data fs) : ∃ fs', fs'.Tidy ∧
      (fs'.disk path).live.map Blob.content = some data ∧
      ∀ {r : Except SsTableError Unit} {σ : SimFs × M}, Runs (SimFs.failing none) True
        ((storage (.syncFile path)).mapError SsTableError.storage) (fs, m) r σ ↔
          r = .ok () ∧ σ = (fs', m) := by
  have hlive : (fs.disk path).live = some ⟨[], data⟩ := by rw [hat.disk, Disk.live_put]
  rw [SimFs.disk, SimFs.live_slot, Option.map_eq_some_iff] at hlive
  obtain ⟨i, hi, -⟩ := hlive
  obtain ⟨htidy, hdisk⟩ := SimFs.syncFile_refines hat.tidy hi
  have hrun : SimFs.run (.syncFile path) fs = (.ok (), (fs.syncFile path).2) := by
    rw [SimFs.run, SimFs.syncFile, hi]
  refine ⟨(fs.syncFile path).2, htidy, ?_, fun {r σ} => ?_⟩
  · rw [hdisk, hat.disk, Disk.edit_put, Disk.live_put, Option.map_some, Blob.content_sync]
    rfl
  rw [Runs.mapError_iff]
  constructor
  · rintro ⟨r', rfl, hsync⟩
    obtain ⟨s', m'⟩ := σ
    obtain ⟨hstep, rfl⟩ := Runs.device_iff.mp hsync
    obtain ⟨rfl, rfl⟩ := Prod.mk.inj ((SimFs.failing_none_step hstep).trans hrun)
    exact ⟨rfl, rfl⟩
  · rintro ⟨rfl, rfl⟩
    exact ⟨.ok (), rfl, Runs.device_iff.mpr ⟨hrun.symm, rfl⟩⟩

namespace SsTableBuilder

theorem runs_sealBlock_nil {S : Type} {F : Sem StorageOp StorageOp.Resp S} {strict : Prop} {s : S}
    {b : SsTableBuilder} {r : Except SsTableError Unit} {σ : S × SsTableBuilder}
    (hnil : b.block = []) :
    Runs F strict sealBlock (s, b) r σ ↔ r = .ok () ∧ σ = (s, b) := by
  rw [sealBlock, Runs.get_bind, if_pos hnil, Runs.pure_iff, eq_comm, @eq_comm _ σ]

/-- `finish` is a seal, and a `finish` with no open block. -/
theorem runs_finish_ok {S : Type} {F : Sem StorageOp StorageOp.Resp S} {strict : Prop}
    {σ σ' : S × SsTableBuilder} {summary : SsTableSummary}
    (h : Runs F strict finish σ (.ok summary) σ') :
    ∃ σ₁, Runs F strict sealBlock σ (.ok ()) σ₁ ∧
      (σ₁.2.block = [] → Runs F strict finish σ₁ (.ok summary) σ') := by
  obtain ⟨_, σ₁, hseal, htail⟩ := Runs.bind_ok_iff.mp h
  exact ⟨σ₁, hseal, fun hnil => Runs.bind_ok_iff.mpr
    ⟨(), σ₁, (runs_sealBlock_nil hnil).mpr ⟨rfl, rfl⟩, htail⟩⟩

theorem runs_finish_of_seal {S : Type} {F : Sem StorageOp StorageOp.Resp S} {strict : Prop}
    {σ σ₁ σ' : S × SsTableBuilder} {summary : SsTableSummary}
    (hseal : Runs F strict sealBlock σ (.ok ()) σ₁) (hnil : σ₁.2.block = [])
    (h : Runs F strict finish σ₁ (.ok summary) σ') : Runs F strict finish σ (.ok summary) σ' := by
  obtain ⟨_, σ₂, hseal₂, htail⟩ := Runs.bind_ok_iff.mp h
  obtain ⟨-, rfl⟩ := (runs_sealBlock_nil hnil).mp hseal₂
  exact Runs.bind_ok_iff.mpr ⟨(), σ₁, hseal, htail⟩

/-- No length in the index and in the filter is narrowed. -/
def TailFits (index : List BlockHandle) (bloom : BloomFilter) : Prop :=
  (index.length < 2 ^ 32 ∧ (∀ h ∈ index, h.firstKey.length < 2 ^ 32) ∧
    (withCrc (encodeIndex index)).length < 2 ^ 32) ∧
  (withCrc bloom.encode).length < 2 ^ 32

instance (index : List BlockHandle) (bloom : BloomFilter) : Decidable (TailFits index bloom) :=
  inferInstanceAs (Decidable (_ ∧ _))

/-- The index, the filter and the footer are written. -/
theorem runs_finish {b : SsTableBuilder} {d : Disk} {data : Bytes} {fs : SimFs}
    (hat : FileAt d b.path data fs) (hoff : b.offset = data.length) (hnil : b.block = []) :
    ∃ fs' summary, fs'.Tidy ∧ (fs'.disk b.path).live.map Blob.content =
        some (fileOf data b.index b.bloom b.numEntries) ∧
      ∀ {r : Except SsTableError SsTableSummary} {σ : SimFs × SsTableBuilder},
        Runs (SimFs.failing none) True finish (fs, b) r σ ↔
          TailFits b.index b.bloom ∧ r = .ok summary ∧ σ = (fs', b) := by
  obtain ⟨off₁, fs₁, hat₁, hrun₁⟩ := hat.runs_append (m := b) (withCrc (encodeIndex b.index))
  obtain ⟨off₂, fs₂, hat₂, hrun₂⟩ := hat₁.runs_append (m := b) (withCrc b.bloom.encode)
  let footer := withCrc (Footer.encode
    ⟨data.length, (withCrc (encodeIndex b.index)).length,
      data.length + (withCrc (encodeIndex b.index)).length, (withCrc b.bloom.encode).length,
      b.numEntries⟩)
  obtain ⟨off₃, fs₃, hat₃, hrun₃⟩ := hat₂.runs_append (m := b) footer
  obtain ⟨fs', htidy, hlive, hrun₄⟩ := hat₃.runs_syncFile (m := b)
  refine ⟨fs', ⟨b.numEntries, b.firstKey, b.lastKey,
    data.length + (withCrc (encodeIndex b.index)).length + (withCrc b.bloom.encode).length +
      footer.length⟩, htidy, hlive, fun {r σ} => ?_⟩
  rw [finish, Runs.bind_of_iff (runs_sealBlock_nil hnil), Runs.get_bind, Runs.fits_bind,
    true_implies, TailFits]
  refine Iff.trans (and_congr_right fun hindex => ?_) and_assoc.symm
  have hilen := hindex.2.2
  dsimp only at hilen ⊢
  rw [Nat.mod_eq_of_lt hilen, Runs.bind_of_iff hrun₁, Runs.fits_bind, true_implies]
  refine and_congr_right fun hblen => ?_
  rw [Nat.mod_eq_of_lt hblen, hoff, Runs.bind_of_iff hrun₂, Runs.bind_of_iff hrun₃,
    Runs.bind_of_iff hrun₄, Runs.pure_iff, eq_comm, @eq_comm _ σ]

/-- A `finish` that seals the open block returns, where the lengths fit. -/
theorem exists_runs_finish {b : SsTableBuilder} {d : Disk} {data first : Bytes} {fs : SimFs}
    (hat : FileAt d b.path data fs) (hoff : b.offset = data.length) (hne : b.block ≠ [])
    (hfirst : b.blockFirstKey = some first) (hlen : (withCrc b.block).length < 2 ^ 32)
    (htail : TailFits (b.index ++ [⟨first, b.offset, (withCrc b.block).length⟩]) b.bloom) :
    ∃ summary fs' b', Runs (SimFs.failing none) True finish (fs, b) (.ok summary) (fs', b') := by
  obtain ⟨fs₁, hat₁, hseal⟩ := runs_sealBlock_ok hne hfirst hat
  have hoff₁ : b.offset + (withCrc b.block).length = (data ++ withCrc b.block).length := by
    rw [List.length_append, hoff]
  obtain ⟨fs', summary, -, -, hfinish⟩ := runs_finish (b := { b with
    offset := b.offset + (withCrc b.block).length
    index := b.index ++ [⟨first, b.offset, (withCrc b.block).length⟩]
    blockFirstKey := none
    block := [] }) hat₁ hoff₁ rfl
  exact ⟨summary, fs', _, runs_finish_of_seal (hseal.mpr ⟨hlen, rfl, rfl⟩) rfl
    (hfinish.mpr ⟨htail, rfl, rfl⟩)⟩

end SsTableBuilder

/-! ### Blocks with scars

A block is given by its first key and by what stands before its last CRC.
-/

def rawHandles : Nat → List (Bytes × Bytes) → List BlockHandle
  | _, [] => []
  | off, p :: ps => ⟨p.1, off, (withCrc p.2).length⟩ :: rawHandles (off + (withCrc p.2).length) ps

def rawData (ps : List (Bytes × Bytes)) : Bytes := ps.flatMap fun p => withCrc p.2

omit [TableHashing] in
/-- How many bytes stand before the last CRCs. -/
def rawLength (ps : List (Bytes × Bytes)) : Nat := (ps.map fun p => p.2.length).sum

theorem rawData_concat (ps : List (Bytes × Bytes)) (p : Bytes × Bytes) :
    rawData (ps ++ [p]) = rawData ps ++ withCrc p.2 := by
  rw [rawData, List.flatMap_append, List.flatMap_singleton, rawData]

theorem rawHandles_concat (off : Nat) (ps : List (Bytes × Bytes)) (p : Bytes × Bytes) :
    rawHandles off (ps ++ [p]) =
      rawHandles off ps ++ [⟨p.1, off + (rawData ps).length, (withCrc p.2).length⟩] := by
  induction ps generalizing off with
  | nil => rfl
  | cons q ps ih =>
    have hlen : (rawData (q :: ps)).length = (withCrc q.2).length + (rawData ps).length :=
      List.length_append
    rw [List.cons_append, rawHandles, rawHandles, ih, hlen, Nat.add_assoc, List.cons_append]

omit [TableHashing] in
theorem rawLength_concat (ps : List (Bytes × Bytes)) (p : Bytes × Bytes) :
    rawLength (ps ++ [p]) = rawLength ps + p.2.length := by
  rw [rawLength, List.map_append, List.sum_append, List.map_singleton, List.sum_singleton, rawLength]

/-- A block without a scar. -/
def cleanBlock (b : List TableEntry) : Bytes × Bytes := (headKey b, encodeBlock b)

theorem rawData_clean (bs : List (List TableEntry)) : rawData (bs.map cleanBlock) = dataBytes bs :=
  List.flatMap_map ..

theorem rawHandles_clean (off : Nat) (bs : List (List TableEntry)) :
    rawHandles off (bs.map cleanBlock) = handles off bs := by
  induction bs generalizing off with
  | nil => rfl
  | cons b bs ih =>
    rw [List.map_cons, rawHandles, ih]
    rfl

omit [TableHashing] in
theorem encodeBlock_append (es fs : List TableEntry) :
    encodeBlock (es ++ fs) = encodeBlock es ++ encodeBlock fs := List.flatMap_append

omit [TableHashing] in
theorem rawLength_clean (bs : List (List TableEntry)) :
    rawLength (bs.map cleanBlock) = (encodeBlock bs.flatten).length := by
  induction bs with
  | nil => rfl
  | cons b bs ih =>
    rw [List.flatten_cons, encodeBlock_append, List.length_append, ← ih]
    rfl

/-- The builder was given `es`, and there are more bytes before the last CRCs than these
entries take. -/
structure Scarred (path : Path) (ps : List (Bytes × Bytes)) (es : List TableEntry)
    (b : SsTableBuilder) : Prop where
  path : b.path = path
  first : b.block ≠ [] → b.blockFirstKey.isSome
  index : b.index = rawHandles 0 ps
  offset : b.offset = (rawData ps).length
  bloom : b.bloom.Sound
  numEntries : b.numEntries = es.length
  small : ∀ p ∈ ps, (withCrc p.2).length < 2 ^ 32
  long : (encodeBlock es).length < rawLength ps + b.block.length

namespace Scarred

variable {d : Disk} {path : Path} {ps : List (Bytes × Bytes)} {es : List TableEntry}
variable {b : SsTableBuilder} {fs : SimFs}

/-- The first scar. -/
theorem start {n : FilterSize} (hb : Building path n (blocksOf es) es b) (hne : b.block ≠ []) :
    Scarred path ((blocksOf es).done.map cleanBlock) es { b with block := withCrc b.block } where
  path := hb.path
  first _ := by
    rw [hb.block, ne_eq, encodeBlock_eq_nil] at hne
    obtain ⟨x, xs, hx⟩ := List.exists_cons_of_ne_nil hne
    show b.blockFirstKey.isSome = true
    rw [hb.blockFirstKey, hx]
    rfl
  index := hb.index.trans (rawHandles_clean 0 _).symm
  offset := by rw [rawData_clean, ← hb.offset]
  bloom := by
    show b.bloom.Sound
    rw [hb.bloom]
    exact sound_bloomOf hb.bits _
  numEntries := hb.numEntries
  small p hp := by
    obtain ⟨x, hx, rfl⟩ := List.mem_map.mp hp
    exact hb.fits x hx
  long := by
    have hes : es = (blocksOf es).done.flatten ++ (blocksOf es).current :=
      (entries_blocksOf es).symm
    have hlen : (encodeBlock es).length =
        rawLength ((blocksOf es).done.map cleanBlock) + b.block.length := by
      rw [rawLength_clean, hb.block, ← List.length_append, ← encodeBlock_append, ← hes]
    show _ < _ + (withCrc b.block).length
    rw [length_withCrc]
    omega

theorem push (hs : Scarred path ps es b) {x : TableEntry} {bloom : BloomFilter}
    (hbloom : b.bloom.insert x.key = some bloom) :
    Scarred path ps (es ++ [x]) (b.push x.key x.seq x.value bloom) where
  path := hs.path
  first _ := rfl
  index := hs.index
  offset := hs.offset
  bloom := hs.bloom.insert hbloom
  numEntries := by
    show b.numEntries + 1 = _
    rw [hs.numEntries, List.length_append, List.length_singleton]
  small := hs.small
  long := by
    have hlong := hs.long
    show _ < _ + (b.block ++ encodeEntry x.key x.seq x.value).length
    rw [encodeBlock_concat, List.length_append, List.length_append, TableEntry.encode]
    omega

/-- The scarred block is written. -/
theorem close (hs : Scarred path ps es b) {first : Bytes}
    (hlen : (withCrc b.block).length < 2 ^ 32) :
    Scarred path (ps ++ [(first, b.block)]) es
      { b with
        offset := b.offset + (withCrc b.block).length
        index := b.index ++ [⟨first, b.offset, (withCrc b.block).length⟩]
        blockFirstKey := none
        block := [] } where
  path := hs.path
  first h := absurd rfl h
  index := by
    rw [rawHandles_concat, Nat.zero_add, ← hs.offset, ← hs.index]
  offset := by rw [rawData_concat, List.length_append, ← hs.offset]
  bloom := hs.bloom
  numEntries := hs.numEntries
  small p hp := by
    rcases List.mem_append.mp hp with hp | hp
    · exact hs.small p hp
    · rw [List.mem_singleton.mp hp]
      exact hlen
  long := by
    have hlong := hs.long
    rw [rawLength_concat]
    exact hlong

/-- A second scar in the block. -/
theorem mark (hs : Scarred path ps es b) (hne : b.block ≠ []) :
    Scarred path ps es { b with block := withCrc b.block } where
  path := hs.path
  first _ := hs.first hne
  index := hs.index
  offset := hs.offset
  bloom := hs.bloom
  numEntries := hs.numEntries
  small := hs.small
  long := by
    have hlong := hs.long
    show _ < _ + (withCrc b.block).length
    rw [length_withCrc]
    omega

/-- **A scar does not heal**: whatever a call returns, the bytes of the scar are there. -/
theorem add (hs : Scarred path ps es b) (hat : FileAt d path (rawData ps) fs) {c : AddCall}
    {r : Except SsTableError Unit} {fs' : SimFs} {b' : SsTableBuilder}
    (h : Runs (SimFs.failing c.fault) True
      (SsTableBuilder.add c.entry.key c.entry.seq c.entry.value) (fs, b) r (fs', b')) :
    ∃ ps', FileAt d path (rawData ps') fs' ∧
      Scarred path ps' (es ++ keptEntries [c] [r]) b' := by
  obtain ⟨x, fault⟩ := c
  dsimp only at h
  by_cases hlate : b.Late x.key
  · obtain ⟨rfl, hσ⟩ := (SsTableBuilder.runs_add_late hlate).mp h
    obtain ⟨rfl, rfl⟩ := Prod.mk.inj hσ
    refine ⟨ps, hat, ?_⟩
    rw [keptEntries_error, List.append_nil]
    exact hs
  by_cases hcrowd : b.Crowded x.key x.value
  · have hne : b.block ≠ [] := hcrowd.1
    cases fault with
    | some err =>
      rcases (SsTableBuilder.runs_add_crowded hlate hcrowd).mp h with
        ⟨s₁, b₁, bloom, hseal, -⟩ | ⟨e, rfl, hseal⟩
      · cases ((SsTableBuilder.runs_sealBlock_fail hne).mp hseal).2.1
      · obtain ⟨-, -, hσ⟩ := (SsTableBuilder.runs_sealBlock_fail hne).mp hseal
        obtain ⟨rfl, rfl⟩ := Prod.mk.inj hσ
        refine ⟨ps, hat, ?_⟩
        rw [keptEntries_error, List.append_nil]
        exact hs.mark hne
    | none =>
      obtain ⟨first, hfirst⟩ := Option.isSome_iff_exists.mp (hs.first hne)
      rw [← hs.path] at hat
      obtain ⟨fs₁, hat', hsealed⟩ := SsTableBuilder.runs_sealBlock_ok hne hfirst hat
      rcases (SsTableBuilder.runs_add_crowded hlate hcrowd).mp h with
        ⟨s₁, b₁, bloom, hseal, hbloom, -, rfl, hσ⟩ | ⟨e, rfl, hseal⟩
      · obtain ⟨hlen, -, hσ₁⟩ := hsealed.mp hseal
        obtain ⟨rfl, rfl⟩ := Prod.mk.inj hσ₁
        obtain ⟨rfl, rfl⟩ := Prod.mk.inj hσ
        refine ⟨ps ++ [(first, b.block)], ?_, (hs.close hlen).push hbloom⟩
        rw [rawData_concat, ← hs.path]
        exact hat'
      · cases (hsealed.mp hseal).2.1
  · obtain ⟨bloom, hbloom, -, rfl, hσ⟩ := (SsTableBuilder.runs_add_roomy hlate hcrowd).mp h
    obtain ⟨rfl, rfl⟩ := Prod.mk.inj hσ
    exact ⟨ps, hat, hs.push hbloom⟩

end Scarred

theorem Scarred.adds {d : Disk} {path : Path} {calls : List AddCall}
    {rs : List (Except SsTableError Unit)} {σ σ' : SimFs × SsTableBuilder}
    (h : AddRun calls σ rs σ') : ∀ {ps : List (Bytes × Bytes)} {es : List TableEntry},
      FileAt d path (rawData ps) σ.1 → Scarred path ps es σ.2 →
      ∃ ps', FileAt d path (rawData ps') σ'.1 ∧
        Scarred path ps' (es ++ keptEntries calls rs) σ'.2 := by
  induction h with
  | nil σ =>
    intro ps es hat hs
    refine ⟨ps, hat, ?_⟩
    rwa [keptEntries_nil, List.append_nil]
  | cons hadd _ ih =>
    intro ps es hat hs
    obtain ⟨ps', hat', hs'⟩ := hs.add hat hadd
    rw [keptEntries_cons, ← List.append_assoc]
    exact ih hat' hs'

/-! ### The finished file -/

/-- The bytes of a table with a scar. -/
structure ScarredFile (es : List TableEntry) (c : Bytes) : Prop where
  parts : ∃ ps bloom, c = fileOf (rawData ps) (rawHandles 0 ps) bloom es.length ∧ bloom.Sound ∧
    (∀ p ∈ ps, (withCrc p.2).length < 2 ^ 32) ∧
    ((rawHandles 0 ps).length < 2 ^ 32 ∧ ∀ h ∈ rawHandles 0 ps, h.firstKey.length < 2 ^ 32) ∧
    (withCrc (encodeIndex (rawHandles 0 ps))).length < 2 ^ 32 ∧
    (withCrc bloom.encode).length < 2 ^ 32 ∧ (encodeBlock es).length < rawLength ps

theorem Scarred.finish {d : Disk} {path : Path} {ps : List (Bytes × Bytes)} {es : List TableEntry}
    {b b' : SsTableBuilder} {fs fs' : SimFs} {summary : SsTableSummary}
    (hs : Scarred path ps es b) (hat : FileAt d path (rawData ps) fs)
    (h : Runs (SimFs.failing none) True SsTableBuilder.finish (fs, b) (.ok summary) (fs', b')) :
    fs'.Tidy ∧ ∃ c, (fs'.disk path).live.map Blob.content = some c ∧ ScarredFile es c := by
  obtain ⟨⟨fs₁, b₁⟩, hseal, htail⟩ := SsTableBuilder.runs_finish_ok h
  -- behind the last seal the open block is empty
  obtain ⟨ps, hat, hs, hnil⟩ : ∃ ps, FileAt d path (rawData ps) fs₁ ∧ Scarred path ps es b₁ ∧
      b₁.block = [] := by
    by_cases hne : b.block = []
    · obtain ⟨-, hσ⟩ := (SsTableBuilder.runs_sealBlock_nil hne).mp hseal
      obtain ⟨rfl, rfl⟩ := Prod.mk.inj hσ
      exact ⟨ps, hat, hs, hne⟩
    · obtain ⟨first, hfirst⟩ := Option.isSome_iff_exists.mp (hs.first hne)
      rw [← hs.path] at hat
      obtain ⟨fs₂, hat', hsealed⟩ := SsTableBuilder.runs_sealBlock_ok hne hfirst hat
      obtain ⟨hlen, -, hσ⟩ := hsealed.mp hseal
      obtain ⟨rfl, rfl⟩ := Prod.mk.inj hσ
      refine ⟨ps ++ [(first, b.block)], ?_, hs.close hlen, rfl⟩
      rw [rawData_concat, ← hs.path]
      exact hat'
  rw [← hs.path] at hat
  obtain ⟨fs₂, summary₁, htidy, hlive, hruns⟩ := SsTableBuilder.runs_finish hat hs.offset hnil
  obtain ⟨⟨⟨hcount, hkeys, hilen⟩, hblen⟩, -, hσ⟩ := hruns.mp (htail hnil)
  obtain ⟨rfl, -⟩ := Prod.mk.inj hσ
  rw [hs.index] at hcount hkeys hilen
  rw [hs.path, hs.index, hs.numEntries] at hlive
  refine ⟨htidy, _, hlive, ps, b₁.bloom, rfl, hs.bloom, hs.small, ⟨hcount, hkeys⟩, hilen, hblen, ?_⟩
  have hlong := hs.long
  rw [hnil] at hlong
  exact hlong

/-! ### Reading a table with a scar -/

section Scars

variable {M : Type} {strict H : Prop} {d : Disk} {m : M} {f : Blob}

theorem wpE_loadBlock_raw {r : SsTableReader} {h : BlockHandle} {body : Bytes}
    {Q : List TableEntry → Disk × M → Prop} {R : SsTableError → Disk × M → Prop}
    (hlive : (d r.path).live = some f) (hlen : (withCrc body).length = h.len)
    (hle : h.offset + h.len ≤ f.content.length)
    (hbody : slice f.content h.offset (withCrc body).length = withCrc body)
    (hok : ∀ es, body = encodeBlock es → Q es (d, m)) (herr : ∀ err, R err (d, m)) :
    wpE (Disk.sem Faults.none) strict H (fun _ => True) (r.loadBlock h) Q R (d, m) := by
  have hregion : Region False f.content h.offset body := .inl hbody
  refine SsTableReader.wpE_readChecked trivial hlive hlen hle hregion (fun _ => ?_)
    (fun hf => hf.elim) fun _ err => herr err
  refine wpE_ofExcept.mpr ⟨trivial, ?_⟩
  rw [take_withCrc]
  cases hdec : decodeBlock body with
  | error e => exact herr e
  | ok es => exact hok es (decodeBlock_ok hdec).1

/-- **What the iterator yields without an error takes all the bytes there are.** -/
theorem wpE_iterFrom_raw {r : SsTableReader} {post : Bytes} (hlive : (d r.path).live = some f) :
    ∀ (ps : List (Bytes × Bytes)) (pre : Bytes), f.content = pre ++ rawData ps ++ post →
      wpE (Disk.sem Faults.none) strict H (fun _ => True) (r.iterFrom (rawHandles pre.length ps))
        (fun items _ => ∀ xs, items = xs.map .ok → (encodeBlock xs).length = rawLength ps)
        (fun _ _ => True) (d, m) := by
  intro ps
  induction ps with
  | nil =>
    intro pre _
    refine wpE_pure.mpr ⟨trivial, fun xs hxs => ?_⟩
    rw [List.map_eq_nil_iff.mp hxs.symm]
    rfl
  | cons p ps ih =>
    intro pre hf
    have hdata : rawData (p :: ps) = withCrc p.2 ++ rawData ps := rfl
    rw [hdata] at hf
    have hmid : f.content = pre ++ withCrc p.2 ++ (rawData ps ++ post) := by
      rw [hf]
      simp only [List.append_assoc]
    have hbody : slice f.content pre.length (withCrc p.2).length = withCrc p.2 := by
      rw [hmid]
      exact slice_mid _ _ _
    have hle : pre.length + (withCrc p.2).length ≤ f.content.length := by
      rw [hmid, List.length_append, List.length_append]
      omega
    have hrest : f.content = (pre ++ withCrc p.2) ++ rawData ps ++ post := by
      rw [hf]
      simp only [List.append_assoc]
    rw [rawHandles, SsTableReader.iterFrom]
    refine wpE_bind.mpr (wpE_attempt (@wpE_loadBlock_raw _ _ _ _ _ _ _ _ _ p.2 _ _ hlive rfl hle
      hbody (fun es hes => ?_) fun err => ?_))
    · have hnext := ih (pre ++ withCrc p.2) hrest
      rw [List.length_append] at hnext
      refine wpE_bind.mpr (wpE_post hnext (fun items _ _ hitems => ?_)
        fun _ _ _ _ => trivial)
      refine wpE_pure.mpr ⟨trivial, fun xs hxs => ?_⟩
      -- the items of this block are the first ones
      obtain ⟨xs₁, xs₂, rfl, h1, h2⟩ := List.append_eq_map_iff.mp hxs
      have h1' : xs₁ = es := by
        refine List.map_injective_iff.mpr (fun _ _ h => Except.ok.inj h) h1
      rw [encodeBlock_append, List.length_append, hitems xs₂ h2.symm, h1', ← hes]
      rfl
    · refine wpE_pure.mpr ⟨trivial, fun xs hxs => ?_⟩
      cases xs with
      | nil => cases hxs
      | cons x xs => cases hxs

/-- **`open` on blocks, an index and a filter with their footer.** -/
theorem wpE_open_fileOf {path : Path} {data : Bytes} {index : List BlockHandle}
    {bloom : BloomFilter} {count : Nat} {Q : SsTableReader → Disk × M → Prop}
    {R : SsTableError → Disk × M → Prop} (hlive : (d path).live = some f)
    (hf : f.content = fileOf data index bloom count) (hdata : data.length < 2 ^ 64 - 2 ^ 32)
    (hcount : count < 2 ^ 64) (hindex : IndexFits index)
    (hilen : (withCrc (encodeIndex index)).length < 2 ^ 32)
    (hblen : (withCrc bloom.encode).length < 2 ^ 32) (hbloom : bloom.Sound)
    (hok : Q ⟨path, index, bloom, count⟩ (d, m)) :
    wpE (Disk.sem Faults.none) strict H (fun _ => True) (SsTableReader.open path) Q R (d, m) := by
  have hflen : ∀ F : Footer, (withCrc F.encode).length = FOOTER_SIZE := fun F => by
    rw [length_withCrc, length_footer]
  have hlen : f.content.length - FOOTER_SIZE =
      (data ++ withCrc (encodeIndex index) ++ withCrc bloom.encode).length := by
    rw [hf, fileOf, List.length_append, hflen, Nat.add_sub_cancel]
  have hle : FOOTER_SIZE ≤ f.content.length := by
    rw [hf, fileOf, List.length_append, hflen]
    exact Nat.le_add_left _ _
  -- the three regions, one behind the other
  have hindexAt : Region False f.content data.length (encodeIndex index) := by
    refine .inl ?_
    rw [hf, fileOf, List.append_assoc]
    exact slice_mid _ _ _
  have hbloomAt : Region False f.content (data.length + (withCrc (encodeIndex index)).length)
      bloom.encode := by
    refine .inl ?_
    rw [hf, fileOf, ← List.length_append]
    exact slice_mid _ _ _
  refine SsTableReader.wpE_open_at
    (F := ⟨data.length, (withCrc (encodeIndex index)).length,
      data.length + (withCrc (encodeIndex index)).length, (withCrc bloom.encode).length, count⟩)
    trivial hlive hle ⟨?_, hilen, ?_, hblen, hcount⟩ (.inl ?_) rfl ?_ hindexAt
    (decodeIndex_encodeIndex (length_leBytes 4 _) hindex.1 hindex.2) rfl ?_ hbloomAt hbloom
    (fun _ => hok) (fun h => h.elim) fun ha => absurd ha Faults.not_any_none
  · show data.length < _
    omega
  · show data.length + _ < _
    omega
  · rw [hlen, hf, fileOf]
    conv_lhs => rw [← List.append_nil (_ ++ withCrc (Footer.encode _))]
    exact slice_mid _ _ _
  · rw [hlen, List.length_append, List.length_append]
    exact Nat.le_add_right _ _
  · rw [hlen, List.length_append, List.length_append]

theorem length_rawData_le {ps : List (Bytes × Bytes)}
    (h : ∀ p ∈ ps, (withCrc p.2).length < 2 ^ 32) :
    rawLength ps ≤ (rawData ps).length ∧ (rawData ps).length ≤ ps.length * (2 ^ 32 - 1) := by
  induction ps with
  | nil => exact ⟨Nat.le_refl _, Nat.zero_le _⟩
  | cons p ps ih =>
    obtain ⟨h1, h2⟩ := ih fun q hq => h q (List.mem_cons_of_mem _ hq)
    have hp := h p List.mem_cons_self
    have hlen : (rawData (p :: ps)).length = (withCrc p.2).length + (rawData ps).length :=
      List.length_append
    have hraw : rawLength (p :: ps) = p.2.length + rawLength ps := List.sum_cons
    have hcrc := length_withCrc p.2
    rw [hraw, hlen, List.length_cons, Nat.add_mul]
    omega

theorem rawHandles_fit {bound : Nat} : ∀ {ps : List (Bytes × Bytes)} {off : Nat},
    (∀ p ∈ ps, (withCrc p.2).length < 2 ^ 32) → off + (rawData ps).length ≤ bound →
      ∀ h ∈ rawHandles off ps, h.offset ≤ bound ∧ h.len < 2 ^ 32 := by
  intro ps
  induction ps with
  | nil => exact fun _ _ h hh => absurd hh List.not_mem_nil
  | cons p ps ih =>
    intro off hsmall hle h hh
    have hlen : (rawData (p :: ps)).length = (withCrc p.2).length + (rawData ps).length :=
      List.length_append
    rcases List.mem_cons.mp hh with rfl | hh
    · exact ⟨by dsimp only; omega, hsmall p List.mem_cons_self⟩
    · exact ih (fun q hq => hsmall q (List.mem_cons_of_mem _ hq)) (by omega) h hh

@[simp] theorem length_rawHandles (off : Nat) (ps : List (Bytes × Bytes)) :
    (rawHandles off ps).length = ps.length := by
  induction ps generalizing off with
  | nil => rfl
  | cons p ps ih => rw [rawHandles, List.length_cons, ih, List.length_cons]

end Scars

/-- **A table with a scar does not hold what was added.** -/
theorem ScarredFile.not_holds {es : List TableEntry} {c : Bytes} {fs : SimFs} {path : Path}
    (h : ScarredFile es c) (hfs : fs.Tidy)
    (hlive : (fs.disk path).live.map Blob.content = some c) : ¬ HoldsExactly fs path es := by
  intro hholds
  obtain ⟨ps, bloom, hc, hbloom, hsmall, ⟨hcount, hkeys⟩, hilen, hblen, hlong⟩ := h.parts
  obtain ⟨f, hlive, hf⟩ := Option.map_eq_some_iff.mp hlive
  rw [length_rawHandles] at hcount
  obtain ⟨hraw, hdata⟩ := length_rawData_le hsmall
  have hcap : (rawData ps).length < 2 ^ 64 - 2 ^ 32 := by omega
  have hes := length_le_encodeBlock es
  have hindex : IndexFits (rawHandles 0 ps) := by
    refine ⟨by rwa [length_rawHandles], fun h hh => ?_⟩
    obtain ⟨hoff, hlen⟩ := rawHandles_fit hsmall (Nat.le_of_eq (Nat.zero_add _)) h hh
    exact ⟨hkeys h hh, by omega, hlen⟩
  obtain ⟨fs', hread⟩ := hholds []
  obtain ⟨r, fs₁, _, hopen, hread⟩ := SimFs.exec_bind hread
  obtain ⟨items, fs₂, _, hiter, hread⟩ := SimFs.exec_bind hread
  obtain ⟨e, fs₃, _, -, hread⟩ := SimFs.exec_bind hread
  have hitems : items = es.map .ok := congrArg (fun x => x.1) (Except.ok.inj
    (congrArg Prod.fst (Option.some.inj hread)))
  -- what the table opens to, and what its iterator yields
  obtain ⟨hfs₁, -, hr, hdisk⟩ := SimFs.exec_spec (H := False) (C := fun _ => True)
    (Q := fun r σ => r = ⟨path, rawHandles 0 ps, bloom, es.length⟩ ∧ σ.1 = fs.disk)
    (R := fun _ _ => True) hfs (wpE_open_fileOf hlive (hf.trans hc) hcap (by omega)
      hindex hilen hblen hbloom ⟨rfl, rfl⟩) hopen
  obtain rfl := hr
  rw [← hdisk] at hlive
  have hcontent : f.content = [] ++ rawData ps ++ (withCrc (encodeIndex (rawHandles 0 ps)) ++
      (withCrc bloom.encode ++ withCrc (Footer.encode
        ⟨(rawData ps).length, (withCrc (encodeIndex (rawHandles 0 ps))).length,
          (rawData ps).length + (withCrc (encodeIndex (rawHandles 0 ps))).length,
          (withCrc bloom.encode).length, es.length⟩))) := by
    rw [hf, hc, fileOf, List.nil_append, List.append_assoc, List.append_assoc]
  have hlen := (SimFs.exec_spec (H := False) (C := fun _ => True) hfs₁
    (wpE_iterFrom_raw hlive ps [] hcontent) hiter).2.2 es hitems
  omega

/-! ### Adds without a scar -/

namespace Building

variable {d : Disk} {path : Path} {n : FilterSize} {es : List TableEntry} {b : SsTableBuilder}
variable {fs : SimFs} {x : TableEntry}

theorem late_iff (hb : Building path n (blocksOf es) es b) : b.Late x.key ↔ KeyLate es x := by
  rw [SsTableBuilder.Late, hb.lastKey]
  constructor
  · rintro ⟨prev, hprev, hle⟩
    obtain ⟨y, hy, rfl⟩ := Option.map_eq_some_iff.mp hprev
    exact ⟨y, hy, hle⟩
  · rintro ⟨y, hy, hle⟩
    exact ⟨y.key, Option.map_eq_some_iff.mpr ⟨y, hy, rfl⟩, hle⟩

theorem crowded_iff (hb : Building path n (blocksOf es) es b) :
    b.Crowded x.key x.value ↔ (blocksOf es).Crowded x := by
  rw [SsTableBuilder.Crowded, Blocks.Crowded, hb.block, ne_eq, encodeBlock_eq_nil]

/-- The entry is kept: its append went well, or it needed none. -/
theorem runs_keep {fault : Option StorageError} {r : Except SsTableError Unit} {fs' : SimFs}
    {b' : SsTableBuilder} (hb : Building path n (blocksOf es) es b)
    (hat : FileAt d path (dataBytes (blocksOf es).done) fs) (hlate : ¬ KeyLate es x)
    (hgood : ¬ (fault.isSome ∧ (blocksOf es).Crowded x))
    (h : Runs (SimFs.failing fault) True (SsTableBuilder.add x.key x.seq x.value) (fs, b) r
      (fs', b')) :
    r = .ok () ∧ Building path n (blocksOf (es ++ [x])) (es ++ [x]) b' ∧
      FileAt d path (dataBytes (blocksOf (es ++ [x])).done) fs' := by
  cases fault with
  | none =>
    have hadd : wpE (Disk.sem Faults.none) True True (fun _ => True)
        (SsTableBuilder.add x.key x.seq x.value)
        (fun _ σ => Building path n (blocksOf (es ++ [x])) (es ++ [x]) σ.2 ∧
          σ.1 = d.put path ⟨[], dataBytes (blocksOf (es ++ [x])).done⟩)
        (fun _ _ => False) (fs.disk, b) := by
      rw [hat.disk]
      exact SsTableBuilder.wpE_add hb (fun y hy => lt_of_not_ge fun hle => hlate ⟨y, hy, hle⟩)
        (fun hs => absurd trivial hs) (fun _ _ => trivial) (fun b' hb' => ⟨hb', rfl⟩)
        fun ha => absurd ha Faults.not_any_none
    obtain ⟨htidy, hend⟩ := SimFs.runs_disk hat.tidy hadd h
    cases r with
    | ok a => exact ⟨rfl, hend.1, htidy, hend.2⟩
    | error e => exact hend.elim
  | some err =>
    have hroom : ¬ (blocksOf es).Crowded x := fun hc => hgood ⟨rfl, hc⟩
    obtain ⟨bloom, hbloom, hfit, rfl, hσ⟩ := (SsTableBuilder.runs_add_roomy
      (fun hl => hlate (hb.late_iff.mp hl)) (fun hc => hroom (hb.crowded_iff.mp hc))).mp h
    obtain ⟨rfl, rfl⟩ := Prod.mk.inj hσ
    have hblocks : blocksOf (es ++ [x]) = ⟨(blocksOf es).done, (blocksOf es).current ++ [x]⟩ := by
      rw [blocksOf_concat, Blocks.push, if_neg hroom]
    rw [hblocks]
    exact ⟨rfl, hb.push (hfit trivial) hbloom, hat⟩

/-- Where there is nothing to seal, an entry can be added whether appends fail or not. -/
theorem exists_runs_add {F : Sem StorageOp StorageOp.Resp SimFs}
    (hb : Building path n (blocksOf es) es b) (hlate : ¬ KeyLate es x)
    (hroom : ¬ (blocksOf es).Crowded x) (hfit : LengthsFit x.key x.value) :
    ∃ b', Runs F True (SsTableBuilder.add x.key x.seq x.value) (fs, b) (.ok ()) (fs, b') := by
  have hsound : b.bloom.Sound := by
    rw [hb.bloom]
    exact sound_bloomOf hb.bits _
  obtain ⟨bloom, hbloom⟩ := hsound.insert_isSome x.key
  exact ⟨_, (SsTableBuilder.runs_add_roomy (fun hl => hlate (hb.late_iff.mp hl))
    fun hc => hroom (hb.crowded_iff.mp hc)).mpr ⟨bloom, hbloom, fun _ => hfit, rfl, rfl⟩⟩

end Building

omit [TableHashing] in
/-- A key that is not late goes to the end. -/
theorem SortedKeys.concat {es : List TableEntry} {x : TableEntry} (h : SortedKeys es)
    (hlate : ¬ KeyLate es x) : SortedKeys (es ++ [x]) := by
  refine List.pairwise_append.mpr ⟨h, List.pairwise_singleton .., fun y hy z hz => ?_⟩
  rw [List.mem_singleton.mp hz]
  obtain rfl | ⟨init, last, rfl⟩ := List.eq_nil_or_concat' es
  · cases hy
  have hlast : last.key < x.key :=
    lt_of_not_ge fun hle => hlate ⟨last, List.getLast?_concat, hle⟩
  rcases List.mem_append.mp hy with hy | hy
  · exact lt_trans ((List.pairwise_append.mp h).2.2 y hy last (List.mem_singleton_self _)) hlast
  · rw [List.mem_singleton.mp hy]
    exact hlast

/-- The calls keep the builder in order, or they leave a scar. -/
theorem Building.adds {d : Disk} {path : Path} {n : FilterSize} {calls : List AddCall}
    {rs : List (Except SsTableError Unit)} {σ σ' : SimFs × SsTableBuilder}
    (h : AddRun calls σ rs σ') : ∀ {es : List TableEntry},
      Building path n (blocksOf es) es σ.2 → FileAt d path (dataBytes (blocksOf es).done) σ.1 →
      SortedKeys es →
      SealsHold es calls ∧ Building path n (blocksOf (es ++ keptEntries calls rs))
          (es ++ keptEntries calls rs) σ'.2 ∧
        FileAt d path (dataBytes (blocksOf (es ++ keptEntries calls rs)).done) σ'.1 ∧
        SortedKeys (es ++ keptEntries calls rs) ∨
      ¬ SealsHold es calls ∧ ∃ ps, FileAt d path (rawData ps) σ'.1 ∧
        Scarred path ps (es ++ keptEntries calls rs) σ'.2 := by
  induction h with
  | nil σ =>
    intro es hb hat hsort
    rw [keptEntries_nil, List.append_nil]
    exact .inl ⟨trivial, hb, hat, hsort⟩
  | @cons c cs r rs σ σ₁ σ₂ hadd hrest ih =>
    intro es hb hat hsort
    rw [keptEntries_cons, ← List.append_assoc, SealsHold]
    by_cases hlate : KeyLate es c.entry
    · rw [if_pos hlate]
      obtain ⟨rfl, hσ⟩ := (SsTableBuilder.runs_add_late (hb.late_iff.mpr hlate)).mp hadd
      rw [keptEntries_error, List.append_nil]
      rw [hσ] at ih
      exact ih hb hat hsort
    rw [if_neg hlate]
    by_cases hscar : c.fault.isSome ∧ (blocksOf es).Crowded c.entry
    · refine .inr ⟨fun hgood => hgood.1 hscar, ?_⟩
      obtain ⟨err, hfault⟩ := Option.isSome_iff_exists.mp hscar.1
      have hcrowd := hb.crowded_iff.mpr hscar.2
      rw [hfault] at hadd
      rcases (SsTableBuilder.runs_add_crowded (fun hl => hlate (hb.late_iff.mp hl)) hcrowd).mp hadd
        with ⟨s₁, b₁, bloom, hseal, -⟩ | ⟨e, rfl, hseal⟩
      · cases ((SsTableBuilder.runs_sealBlock_fail hcrowd.1).mp hseal).2.1
      · obtain ⟨-, -, rfl⟩ := (SsTableBuilder.runs_sealBlock_fail hcrowd.1).mp hseal
        rw [keptEntries_error, List.append_nil]
        rw [← rawData_clean] at hat
        exact Scarred.adds hrest hat (Scarred.start hb hcrowd.1)
    · obtain ⟨rfl, hb', hat'⟩ := hb.runs_keep hat hlate hscar hadd
      have hkept : keptEntries [c] [.ok ()] = [c.entry] := rfl
      rw [hkept]
      rcases ih hb' hat' (hsort.concat hlate) with ⟨hseals, hend⟩ | ⟨hseals, hend⟩
      · exact .inl ⟨⟨hscar, hseals⟩, hend⟩
      · exact .inr ⟨fun hgood => hseals hgood.2, hend⟩

/-! ### The whole run -/

omit [TableHashing] in
theorem mem_keptEntries {calls : List AddCall} {x : TableEntry} :
    ∀ {rs : List (Except SsTableError Unit)}, x ∈ keptEntries calls rs →
      ∃ c ∈ calls, c.entry = x := by
  induction calls with
  | nil => exact fun h => absurd h List.not_mem_nil
  | cons c calls ih =>
    intro rs h
    match rs with
    | [] => cases h
    | .error e :: rs =>
      obtain ⟨c', hc', hx⟩ := ih h
      exact ⟨c', List.mem_cons_of_mem _ hc', hx⟩
    | .ok () :: rs =>
      rcases List.mem_cons.mp h with rfl | h
      · exact ⟨c, List.mem_cons_self, rfl⟩
      · obtain ⟨c', hc', hx⟩ := ih h
        exact ⟨c', List.mem_cons_of_mem _ hc', hx⟩

/-- A builder that was made has an empty file of its own. -/
theorem SsTableBuilder.runs_new {path : Path} {n : FilterSize} {fs fs' : SimFs} {b : SsTableBuilder}
    (hfs : fs.Tidy) (h : Runs (SimFs.failing none) True
      (SsTableBuilder.new path n.expectedKeys n.bitsPerKey) (fs, ()) (.ok b) (fs', ())) :
    Building path n (blocksOf []) [] b ∧ FileAt fs.disk path [] fs' := by
  cases hlive : (fs.disk path).live with
  | none =>
    have hnew : wpE (Disk.sem Faults.none) True True (fun _ => True)
        (SsTableBuilder.new path n.expectedKeys n.bitsPerKey)
        (fun b σ => Building path n (blocksOf []) [] b ∧ σ.1 = fs.disk.put path .empty)
        (fun _ _ => True) (fs.disk, ()) :=
      wpE_new hlive (fun hs => absurd trivial hs) trivial trivial (fun b hb => ⟨hb, rfl⟩)
        fun _ _ => trivial
    obtain ⟨htidy, hb, hdisk⟩ := SimFs.runs_disk hfs hnew h
    exact ⟨hb, htidy, hdisk⟩
  | some f =>
    have hnew : wpE (Disk.sem Faults.none) True True (fun _ => True)
        (SsTableBuilder.new path n.expectedKeys n.bitsPerKey) (fun _ _ => False) (fun _ _ => True)
        (fs.disk, ()) :=
      wpE_bind.mpr (wpE_mapError (wpE_create_exists trivial (by rw [hlive]; rfl) trivial
        fun _ _ => trivial))
    exact (SimFs.runs_disk hfs hnew h).2.elim

/-- The finished table of a builder without a scar. -/
theorem Building.runs_finish {d : Disk} {path : Path} {n : FilterSize} {es : List TableEntry}
    {b b' : SsTableBuilder} {fs fs' : SimFs} {summary : SsTableSummary}
    (hb : Building path n (blocksOf es) es b)
    (hat : FileAt d path (dataBytes (blocksOf es).done) fs)
    (h : Runs (SimFs.failing none) True SsTableBuilder.finish (fs, b) (.ok summary) (fs', b')) :
    TableFits n es ∧ fs'.Tidy ∧ fs'.disk = d.put path ⟨tableBytes n es, []⟩ := by
  have hfinish : wpE (Disk.sem Faults.none) True True (fun _ => True) SsTableBuilder.finish
      (fun _ σ => TableFits n es ∧ σ.1 = d.put path ⟨tableBytes n es, []⟩)
      (fun _ _ => True) (fs.disk, b) := by
    rw [hat.disk]
    exact SsTableBuilder.wpE_finish hb (fun hs => absurd trivial hs) (fun _ _ => trivial)
      (fun hf _ => ⟨hf, rfl⟩) fun _ _ _ _ => trivial
  obtain ⟨htidy, hfits, hdisk⟩ := SimFs.runs_disk hat.tidy hfinish h
  exact ⟨hfits, htidy, hdisk⟩

theorem TableFile.holds {fs : SimFs} {path : Path} {n : FilterSize} {es : List TableEntry} {f : Blob}
    (ht : TableFile n es) (hfs : fs.Tidy) (hlive : (fs.disk path).live = some f)
    (hf : f.content = tableBytes n es) : HoldsExactly fs path es := by
  intro key
  have hno : Faults.none.Any → ∀ P : Prop, P := fun ha _ => absurd ha Faults.not_any_none
  obtain ⟨a, fs', _, he, _, hq⟩ := SimFs.exec_ok (C := fun _ => True) (m := ())
    (p := readBack path key)
    (Q := fun a _ => a = (es.map .ok, SsTableReader.searchBlock es key)) hfs (by
      refine wpE_bind.mpr (SsTableReader.wpE_open ht trivial hlive hf ?_ fun ha _ => hno ha _)
      refine wpE_bind.mpr (SsTableReader.wpE_iter ht trivial hlive hf ?_ fun ha _ _ _ => hno ha _)
      refine wpE_bind.mpr (SsTableReader.wpE_get ht trivial hlive hf ?_ fun ha _ => hno ha _)
      exact wpE_pure.mpr ⟨trivial, rfl⟩)
  rw [hq] at he
  exact ⟨fs', he⟩

/-- The file that a run leaves. -/
theorem TableRun.file {fs fs' : SimFs} {path : Path} {n : FilterSize} {calls : List AddCall}
    {rs : List (Except SsTableError Unit)} (hfs : fs.Tidy)
    (hseq : ∀ c ∈ calls, c.entry.seq < 2 ^ 64) (hrun : TableRun path n calls fs rs fs') :
    fs'.Tidy ∧ ∃ c, (fs'.disk path).live.map Blob.content = some c ∧
      (SealsHold [] calls ∧ TableFile n (keptEntries calls rs) ∧
          c = tableBytes n (keptEntries calls rs) ∨
        ¬ SealsHold [] calls ∧ ScarredFile (keptEntries calls rs) c) := by
  obtain ⟨b, fs₀, fs₁, b₁, summary, b', hnew, hadds, hfinish⟩ := hrun
  obtain ⟨hb, hat⟩ := SsTableBuilder.runs_new hfs hnew
  rcases hb.adds hadds hat List.Pairwise.nil with
    ⟨hseals, hb₁, hat₁, hsort⟩ | ⟨hseals, ps, hat₁, hs⟩
  · rw [List.nil_append] at hb₁ hat₁ hsort
    obtain ⟨hfits, htidy, hdisk⟩ := hb₁.runs_finish hat₁ hfinish
    have hlive : (fs'.disk path).live = some ⟨tableBytes n (keptEntries calls rs), []⟩ := by
      rw [hdisk, Disk.live_put]
    refine ⟨htidy, _, congrArg (Option.map Blob.content) hlive,
      .inl ⟨hseals, ⟨hfits, hsort, fun x hx => ?_⟩, List.append_nil _⟩⟩
    obtain ⟨c, hc, rfl⟩ := mem_keptEntries hx
    exact hseq c hc
  · rw [List.nil_append] at hs
    obtain ⟨htidy, c, hlive, hc⟩ := hs.finish hat₁ hfinish
    exact ⟨htidy, c, hlive, .inr ⟨hseals, hc⟩⟩

/-- **When a table holds what was added to it.**  A late key and an append that fails
where there is no block to seal are harmless; an append that fails in the middle of a
seal is not. -/
theorem holdsExactly_iff {fs fs' : SimFs} {path : Path} {n : FilterSize} {calls : List AddCall}
    {rs : List (Except SsTableError Unit)} (hfs : fs.Tidy)
    (hseq : ∀ c ∈ calls, c.entry.seq < 2 ^ 64) (hrun : TableRun path n calls fs rs fs') :
    HoldsExactly fs' path (keptEntries calls rs) ↔ SealsHold [] calls := by
  obtain ⟨htidy, c, hlive, ⟨hseals, ht, hc⟩ | ⟨hseals, hc⟩⟩ := hrun.file hfs hseq
  · obtain ⟨f, hf, hcontent⟩ := Option.map_eq_some_iff.mp hlive
    exact iff_of_true (ht.holds htidy hf (hcontent.trans hc)) hseals
  · exact iff_of_false (hc.not_holds htidy hlive) hseals

end Runs

section Examples

attribute [local instance] TableHashing.emptyKey

/-- A builder with one entry, at the beginning of a block. -/
theorem exists_building_one : ∃ b fs₀ b₁,
    Runs (SimFs.failing none) True (SsTableBuilder.new ⟨[], .sst 1⟩ 1 20)
      (SimFs.new fun _ => 0, ()) (.ok b) (fs₀, ()) ∧
    Runs (SimFs.failing none) True (SsTableBuilder.add [] 1 (.put [])) (fs₀, b) (.ok ()) (fs₀, b₁) ∧
    Building ⟨[], .sst 1⟩ ⟨1, 20⟩ (blocksOf [⟨[], 1, .put []⟩]) [⟨[], 1, .put []⟩] b₁ ∧
    FileAt (SimFs.new fun _ => 0).disk ⟨[], .sst 1⟩ [] fs₀ := by
  have hcreate : Runs (SimFs.failing none) True
      ((storage (.create ⟨[], .sst 1⟩)).mapError SsTableError.storage) (SimFs.new fun _ => 0, ())
      (.ok ()) (((SimFs.new fun _ => 0).create ⟨[], .sst 1⟩).2, ()) :=
    Runs.mapError_iff.mpr ⟨.ok (), rfl, Runs.device_iff.mpr ⟨rfl, rfl⟩⟩
  have hnew : Runs (SimFs.failing none) True
      (SsTableBuilder.new ⟨[], .sst 1⟩ 1 20) (SimFs.new fun _ => 0, ()) (.ok _) _ :=
    Runs.bind_ok_iff.mpr ⟨(), _, hcreate, Runs.fits_bind.mpr
      ⟨fun _ => by decide, Runs.pure_iff.mpr ⟨rfl, rfl⟩⟩⟩
  obtain ⟨hb, hat⟩ := SsTableBuilder.runs_new (n := ⟨1, 20⟩) (SimFs.new_tidy _) hnew
  have hadd : ∃ b₁, Runs (SimFs.failing none) True (SsTableBuilder.add [] 1 (.put []))
      (((SimFs.new fun _ => 0).create ⟨[], .sst 1⟩).2, _) (.ok ())
      (((SimFs.new fun _ => 0).create ⟨[], .sst 1⟩).2, b₁) :=
    hb.exists_runs_add (x := ⟨[], 1, .put []⟩) (by decide) (by decide)
      ⟨by decide, fun v hv => by cases hv; decide⟩
  obtain ⟨b₁, hadd⟩ := hadd
  have hgood : ¬ ((none : Option StorageError).isSome ∧
      (blocksOf ([] : List TableEntry)).Crowded ⟨[], 1, .put []⟩) := by decide
  obtain ⟨-, hb₁, hat₁⟩ := hb.runs_keep hat (by decide) hgood hadd
  exact ⟨_, _, b₁, hnew, hadd, hb₁, hat⟩

/-- The second entry is rejected, for its key is there. -/
theorem holdsExactly_unsorted :
    let path : Path := ⟨[], .sst 1⟩
    let calls : List AddCall := [⟨⟨[], 1, .put []⟩, none⟩, ⟨⟨[], 2, .delete⟩, none⟩]
    ∃ fs', TableRun path ⟨1, 20⟩ calls (SimFs.new fun _ => 0) [.ok (), .error .unsorted] fs' ∧
      HoldsExactly fs' path [⟨[], 1, .put []⟩] := by
  intro path calls
  obtain ⟨b, fs₀, b₁, hnew, hadd, hb₁, hat⟩ := exists_building_one
  have hlate : b₁.Late [] := hb₁.late_iff (x := ⟨[], 2, .delete⟩) |>.mpr (by decide)
  have hne : b₁.block ≠ [] := by
    rw [hb₁.block]
    decide
  rw [← hb₁.path] at hat
  obtain ⟨summary, fs', b', hfinish⟩ := SsTableBuilder.exists_runs_finish hat hb₁.offset hne
    hb₁.blockFirstKey (by rw [hb₁.block]; decide +kernel) (by
      rw [hb₁.index, hb₁.block, hb₁.bloom, hb₁.offset]
      decide +kernel)
  have hrun : TableRun path ⟨1, 20⟩ calls (SimFs.new fun _ => 0) [.ok (), .error .unsorted] fs' :=
    ⟨b, fs₀, fs₀, b₁, summary, b', hnew,
      .cons hadd (.cons ((SsTableBuilder.runs_add_late hlate).mpr ⟨rfl, rfl⟩) (.nil _)), hfinish⟩
  exact ⟨fs', hrun, (holdsExactly_iff (SimFs.new_tidy _) (by decide) hrun).mpr (by decide)⟩

/-- The append of a seal fails, and the entry of the block is lost. -/
theorem not_holdsExactly_failed_seal :
    let path : Path := ⟨[], .sst 1⟩
    let calls : List AddCall := [⟨⟨[], 1, .put []⟩, none⟩,
      ⟨⟨[0], 2, .put (List.replicate 4096 0)⟩, some (.io path "")⟩, ⟨⟨[], 3, .delete⟩, none⟩]
    ∃ fs', TableRun path ⟨1, 20⟩ calls (SimFs.new fun _ => 0)
        [.ok (), .error (.storage (.io path "")), .error .unsorted] fs' ∧
      ¬ HoldsExactly fs' path [⟨[], 1, .put []⟩] := by
  intro path calls
  obtain ⟨b, fs₀, b₁, hnew, hadd, hb₁, hat⟩ := exists_building_one
  have hlate : ¬ b₁.Late [0] := fun h => absurd
    ((hb₁.late_iff (x := ⟨[0], 2, .put (List.replicate 4096 0)⟩)).mp h) (by decide)
  have hcrowd : b₁.Crowded [0] (.put (List.replicate 4096 0)) :=
    (hb₁.crowded_iff (x := ⟨[0], 2, .put (List.replicate 4096 0)⟩)).mpr (by decide +kernel)
  have hne : withCrc b₁.block ≠ [] := List.append_ne_nil_of_left_ne_nil hcrowd.1 _
  have hfail : Runs (SimFs.failing (some (.io path ""))) True
      (SsTableBuilder.add [0] 2 (.put (List.replicate 4096 0))) (fs₀, b₁)
      (.error (.storage (.io path ""))) (fs₀, { b₁ with block := withCrc b₁.block }) :=
    (SsTableBuilder.runs_add_crowded hlate hcrowd).mpr (.inr ⟨_, rfl,
      (SsTableBuilder.runs_sealBlock_fail hcrowd.1).mpr
        ⟨fun _ => by rw [hb₁.block]; decide +kernel, rfl, rfl⟩⟩)
  have hlate' : SsTableBuilder.Late [] { b₁ with block := withCrc b₁.block } :=
    hb₁.late_iff (x := ⟨[], 3, .delete⟩) |>.mpr (by decide)
  rw [← hb₁.path] at hat
  obtain ⟨summary, fs', b', hfinish⟩ := SsTableBuilder.exists_runs_finish
    (b := { b₁ with block := withCrc b₁.block }) hat hb₁.offset hne hb₁.blockFirstKey
    (by
      dsimp only
      rw [hb₁.block]
      decide +kernel)
    (by
      dsimp only
      rw [hb₁.index, hb₁.block, hb₁.bloom, hb₁.offset]
      decide +kernel)
  have hrun : TableRun path ⟨1, 20⟩ calls (SimFs.new fun _ => 0)
      [.ok (), .error (.storage (.io path "")), .error .unsorted] fs' :=
    ⟨b, fs₀, fs₀, _, summary, b', hnew, .cons hadd (.cons hfail (.cons
      ((SsTableBuilder.runs_add_late hlate').mpr ⟨rfl, rfl⟩) (.nil _))), hfinish⟩
  obtain ⟨htidy, c, hlive, ⟨hseals, -⟩ | ⟨-, hscar⟩⟩ := hrun.file (SimFs.new_tidy _) (by decide)
  · exact absurd hseals (by decide +kernel)
  · exact ⟨fs', hrun, hscar.not_holds htidy hlive⟩

end Examples

end AccretionDb
