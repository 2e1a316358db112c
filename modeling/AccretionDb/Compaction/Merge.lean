import AccretionDb.Compaction.Table
import AccretionDb.Iter

/-! # The merge as a writer's input

`write_table` checks that its keys ascend and fails with `Unsorted` where they do
not.  What a merge of ascending sources yields ascends, and so does what a filter
leaves of it, so a writer behind a merge never sees that error, whatever the
storage answers.
-/

namespace AccretionDb

open CrashLogic

/-! ### The writer on some storage -/

/-- The storage answers the writer's calls on its file, with `J` as before; where a
call fails, `E`. -/
structure Serves {S : Type} (F : Sem StorageOp StorageOp.Resp S) (path : Path) (J : S → Prop)
    (E : Prop) : Prop where
  append : ∀ data s, J s → F.safe (.append path data) s ∧
    ∀ r s', F.step (.append path data) s r s' → J s' ∧ ∀ err, r = .error err → E
  syncFile : ∀ s, J s → F.safe (.syncFile path) s ∧
    ∀ r s', F.step (.syncFile path) s r s' → J s' ∧ ∀ err, r = .error err → E

theorem serves_any (path : Path) : Serves AnyStorage path (fun _ => True) True :=
  ⟨fun _ _ _ => ⟨trivial, fun _ _ _ => ⟨trivial, fun _ _ => trivial⟩⟩,
    fun _ _ => ⟨trivial, fun _ _ _ => ⟨trivial, fun _ _ => trivial⟩⟩⟩

/-- A file that is there is written without an error. -/
theorem serves_put (d : Disk) (path : Path) :
    Serves (Disk.sem Faults.none) path (fun d' => ∃ f, d' = d.put path f) False where
  append := by
    rintro data _ ⟨f, rfl⟩
    refine ⟨trivial, fun r d' h => ?_⟩
    rcases h with h | ⟨hf, _⟩ | ⟨_, _, _, hs, _⟩
    · simp only [Disk.Does, Disk.run, Disk.live_put, Prod.mk.injEq] at h
      obtain ⟨rfl, rfl⟩ := h
      exact ⟨⟨_, Disk.edit_put ..⟩, fun err he => by cases he⟩
    · exact hf.elim
    · exact hs.elim
  syncFile := by
    rintro _ ⟨f, rfl⟩
    refine ⟨trivial, fun r d' h => ?_⟩
    rcases h with h | ⟨hf, _⟩
    · simp only [Disk.Does, Disk.run, Disk.live_put, Prod.mk.injEq] at h
      obtain ⟨rfl, rfl⟩ := h
      exact ⟨⟨_, Disk.edit_put ..⟩, fun err he => by cases he⟩
    · exact hf.elim

namespace SsTableBuilder

variable [TableHashing] {S : Type} {F : Sem StorageOp StorageOp.Resp S} {strict E : Prop}
variable {path : Path} {J : S → Prop} {R : SsTableError → S × SsTableBuilder → Prop} {s : S}

omit [TableHashing] in
/-- An append of the builder. -/
theorem wpE_append_serves (h : Serves F path J E) {b : SsTableBuilder} (hs : J s) (data : Bytes)
    {Q : Nat → S × SsTableBuilder → Prop} (hok : ∀ a s', J s' → Q a (s', b))
    (herr : E → ∀ err s', J s' → R (.storage err) (s', b)) :
    wpE F strict True (fun _ => True) ((storage (.append path data)).mapError .storage) Q R
      (s, b) := by
  obtain ⟨hsafe, hstep⟩ := h.append data s hs
  refine wpE_mapError (wpE_device trivial hsafe (fun a s' ha => ⟨trivial, ?_⟩)
    fun err s' ha => ⟨trivial, ?_⟩)
  · exact hok a s' (hstep _ s' ha).1
  · obtain ⟨hs', he⟩ := hstep _ s' ha
    exact herr (he err rfl) err s' hs'

/-- Sealing a block leaves the last key as it is. -/
theorem wpE_sealBlock_serves (h : Serves F path J E) {b : SsTableBuilder} (hp : b.path = path)
    (hs : J s) {Q : Unit → S × SsTableBuilder → Prop}
    (hok : ∀ s' b', J s' → b'.path = path → b'.lastKey = b.lastKey → Q () (s', b'))
    (herr : E → ∀ err σ, J σ.1 → err ≠ .unsorted → R err σ) :
    wpE F strict True (fun _ => True) sealBlock Q R (s, b) := by
  subst hp
  refine wpE_bind.mpr (wpE_get trivial ?_)
  dsimp only
  by_cases hnil : b.block = []
  · rw [if_pos hnil]
    exact wpE_pure.mpr ⟨trivial, hok s b hs rfl rfl⟩
  · rw [if_neg hnil]
    refine wpE_bind.mpr (wpE_modify trivial trivial ?_)
    refine wpE_bind.mpr (wpE_fits trivial fun _ => ?_)
    refine wpE_bind.mpr (wpE_append_serves h hs _ (fun _ s' hs' => ?_) fun he err s' hs' =>
      herr he _ _ hs' fun h => by cases h)
    cases b.blockFirstKey with
    | none => exact wpE_hang trivial trivial
    | some key => exact wpE_modify trivial trivial (hok s' _ hs' rfl rfl)

/-- `add` fails with `Unsorted` on a key that is late, and only there. -/
theorem wpE_add_serves (h : Serves F path J E) {b : SsTableBuilder} (hp : b.path = path)
    (hs : J s) {key : Bytes} {seq : Nat} {value : Value} {Q : Unit → S × SsTableBuilder → Prop}
    (hlate : b.Late key → R .unsorted (s, b))
    (hok : ¬ b.Late key → ∀ s' b', J s' → b'.path = path → b'.lastKey = some key → Q () (s', b'))
    (herr : E → ∀ err σ, J σ.1 → err ≠ .unsorted → R err σ) :
    wpE F strict True (fun _ => True) (add key seq value) Q R (s, b) := by
  -- what follows the sealing of a crowded block runs on whatever builder it leaves
  have hroom : ∀ q : Unit → Io SsTableBuilder SsTableError Unit,
      (∀ s' b', J s' → b'.path = path → wpE F strict True (fun _ => True) (q ()) Q R (s', b')) →
      wpE F strict True (fun _ => True)
        (if b.Crowded key value then sealBlock >>= q else q ()) Q R (s, b) := by
    intro q hq
    by_cases hc : b.Crowded key value
    · rw [if_pos hc]
      exact wpE_bind.mpr (wpE_sealBlock_serves h hp hs (fun s' b' hs' hp' _ => hq s' b' hs' hp')
        herr)
    · rw [if_neg hc]
      exact hq s b hs hp
  refine wpE_bind.mpr (wpE_get trivial ?_)
  show wpE _ _ _ _ (if b.Late key then _ else _) _ _ _
  by_cases hl : b.Late key
  · rw [if_pos hl]
    exact wpE_throw.mpr ⟨trivial, hlate hl⟩
  · rw [if_neg hl]
    refine hroom _ fun s' b' hs' hp' => ?_
    refine wpE_bind.mpr (wpE_fits trivial fun _ => wpE_bind.mpr (wpE_get trivial ?_))
    dsimp only
    cases b'.bloom.insert key with
    | none => exact wpE_hang trivial trivial
    | some bloom => exact wpE_modify trivial trivial (hok hl s' _ hs' hp' rfl)

theorem wpE_addAll_serves (h : Serves F path J E) {Q : Unit → S × SsTableBuilder → Prop}
    (hok : ∀ s' b', J s' → b'.path = path → Q () (s', b'))
    (herr : E → ∀ err σ, J σ.1 → err ≠ .unsorted → R err σ) :
    ∀ {es : List Entry} {s : S} {b : SsTableBuilder}, b.path = path → J s → Ascending es →
      (∀ prev, b.lastKey = some prev → ∀ e ∈ es, prev < e.1) →
      wpE F strict True (fun _ => True) (addAll es) Q R (s, b) := by
  intro es
  induction es with
  | nil => exact fun hp hs _ _ => wpE_pure.mpr ⟨trivial, hok _ _ hs hp⟩
  | cons e es ih =>
    intro s b hp hs hsort hlast
    refine wpE_bind.mpr (wpE_add_serves h hp hs (fun hlate => ?_) (fun _ s' b' hs' hp' hb' =>
      ih hp' hs' hsort.cons.2 ?_) herr)
    · obtain ⟨prev, hprev, hle⟩ := hlate
      exact absurd (hlast prev hprev e List.mem_cons_self) (not_lt_of_ge hle)
    · intro prev hprev x hx
      rw [hb'] at hprev
      obtain rfl := Option.some.inj hprev
      exact hsort.cons.1 x hx

theorem wpE_finish_serves (h : Serves F path J E) {b : SsTableBuilder} (hp : b.path = path)
    (hs : J s) {Q : SsTableSummary → S × SsTableBuilder → Prop}
    (hok : ∀ r s' b', J s' → Q r (s', b')) (herr : E → ∀ err σ, J σ.1 → err ≠ .unsorted → R err σ) :
    wpE F strict True (fun _ => True) finish Q R (s, b) := by
  have hbad : E → ∀ (err : StorageError) (s' : S) (b : SsTableBuilder), J s' →
      R (.storage err) (s', b) := fun he err s' b hs' => herr he _ _ hs' fun h => by cases h
  refine wpE_bind.mpr (wpE_sealBlock_serves h hp hs (fun s₁ b₁ hs₁ hp₁ _ =>
    wpE_bind.mpr (wpE_get trivial ?_)) herr)
  dsimp only
  rw [hp₁]
  refine wpE_bind.mpr (wpE_fits trivial fun _ => wpE_bind.mpr (wpE_append_serves h hs₁ _
    (fun _ s₂ hs₂ => ?_) fun he err s' hs' => hbad he err s' _ hs'))
  refine wpE_bind.mpr (wpE_fits trivial fun _ => wpE_bind.mpr (wpE_append_serves h hs₂ _
    (fun _ s₃ hs₃ => ?_) fun he err s' hs' => hbad he err s' _ hs'))
  refine wpE_bind.mpr (wpE_append_serves h hs₃ _ (fun _ s₄ hs₄ => ?_) fun he err s' hs' =>
    hbad he err s' _ hs')
  obtain ⟨hsafe, hstep⟩ := h.syncFile s₄ hs₄
  refine wpE_bind.mpr (wpE_mapError (wpE_device trivial hsafe (fun a s₅ ha => ⟨trivial, ?_⟩)
    fun err s₅ ha => ⟨trivial, ?_⟩))
  · exact wpE_pure.mpr ⟨trivial, hok _ s₅ _ (hstep _ s₅ ha).1⟩
  · obtain ⟨hs₅, he⟩ := hstep _ s₅ ha
    exact hbad (he err rfl) err s₅ _ hs₅

/-- **What a builder accepts ascends**, and begins behind the last key it had. -/
theorem wpE_addAll_ascending {R : SsTableError → Unit × SsTableBuilder → Prop}
    (herr : ∀ err σ, R err σ) : ∀ {es : List Entry} {b : SsTableBuilder},
    wpE AnyStorage strict True (fun _ => True) (addAll es)
      (fun _ _ => Ascending es ∧ ∀ prev, b.lastKey = some prev → ∀ e ∈ es, prev < e.1) R
      ((), b) := by
  intro es
  induction es with
  | nil =>
    exact fun {b} => wpE_pure.mpr ⟨trivial, .nil, fun _ _ e he => absurd he List.not_mem_nil⟩
  | cons e es ih =>
    intro b
    refine wpE_bind.mpr (wpE_add_serves (serves_any b.path) rfl trivial (fun _ => herr _ _)
      (fun hl s' b' _ _ hb' => ?_) fun _ _ _ _ _ => herr _ _)
    refine wpE_post ih (fun _ _ _ ⟨hsort, hfirst⟩ => ⟨?_, fun prev hprev x hx => ?_⟩)
      fun err σ _ _ => herr err σ
    · exact List.pairwise_cons.mpr ⟨hfirst e.1 hb', hsort⟩
    · have hprev' : prev < e.1 := lt_of_not_ge fun hle => hl ⟨prev, hprev, hle⟩
      rcases List.mem_cons.mp hx with rfl | hx
      · exact hprev'
      · exact lt_trans hprev' (hfirst e.1 hb' x hx)

end SsTableBuilder

section Writer

variable [TableHashing] {M : Type} {strict : Prop}

/-- A table of ascending keys on a storage that serves its file, once that is created. -/
theorem wpE_writeTable_serves {S : Type} {F : Sem StorageOp StorageOp.Resp S} {E : Prop}
    {path : Path} {J : S → Prop} (h : Serves F path J E) {id n : Nat} {es : List Entry} {s : S}
    {m : M} {Q : Option TableMeta → S × M → Prop} {R : CompactionError → S × M → Prop}
    (hsort : Ascending es)
    (hnew : wpE F strict True (fun _ => True) (storage (.create path))
      (fun _ σ => J σ.1 ∧ σ.2 = m) (fun err σ => R (.ssTable (.storage err)) σ) (s, m))
    (hnil : es = [] → ∀ s', J s' → Q none (s', m))
    (hok : ∀ first rest, es = first :: rest → ∀ s', J s' → Q (some (tableMeta id first rest)) (s', m))
    (herr : E → ∀ err s', J s' → err ≠ .ssTable .unsorted → R err (s', m)) :
    wpE F strict True (fun _ => True) (writeTable path id n es) Q R (s, m) := by
  have hbad : E → ∀ (err : SsTableError) (σ : S × SsTableBuilder), J σ.1 → err ≠ .unsorted →
      R (.ssTable err) (σ.1, m) := fun he err σ hs' hne =>
    herr he _ σ.1 hs' fun h => hne (by injection h)
  refine wpE_bind.mpr (wpE_mapError (wpE_bind.mpr (wpE_mapError (wpE_post hnew
    (fun _ σ _ hσ => ?_) fun _ _ _ hr => hr))))
  obtain ⟨s₀, m'⟩ := σ
  obtain ⟨hs₀, rfl⟩ := hσ
  refine wpE_bind.mpr (wpE_fits trivial fun _ => wpE_pure.mpr ⟨trivial, wpE_scope ?_⟩)
  refine wpE_bind.mpr (wpE_mapError (SsTableBuilder.wpE_addAll_serves h (fun s₁ b₁ hs₁ hp₁ => ?_)
    hbad rfl hs₀ hsort fun prev hprev => by cases hprev))
  cases es with
  | nil => exact wpE_pure.mpr ⟨trivial, hnil rfl s₁ hs₁⟩
  | cons first rest =>
    refine wpE_bind.mpr (wpE_mapError (SsTableBuilder.wpE_finish_serves h hp₁ hs₁
      (fun _ s₂ _ hs₂ => ?_) hbad))
    exact wpE_pure.mpr ⟨trivial, hok first rest rfl s₂ hs₂⟩

/-- **A writer that is fed ascending keys does not return `Unsorted`.** -/
theorem wpE_writeTable_any {path : Path} {id n : Nat} {es : List Entry} (hsort : Ascending es)
    (m : M) : wpE AnyStorage strict True (fun _ => True) (writeTable path id n es)
      (fun _ _ => True) (fun err _ => err ≠ .ssTable .unsorted) ((), m) := by
  refine wpE_writeTable_serves (serves_any path) hsort ?_ (fun _ _ _ => trivial)
    (fun _ _ _ _ _ => trivial) fun _ _ _ _ hne => hne
  refine wpE_device trivial trivial (fun _ _ hstep => ⟨trivial, trivial, ?_⟩) fun _ _ _ =>
    ⟨trivial, fun h => by cases h⟩
  rfl

/-- **A writer whose path is free** writes its file; where the path is taken nothing
happens. -/
theorem wpE_writeTable_put {path : Path} {id n : Nat} {es : List Entry} (hsort : Ascending es)
    (d : Disk) (m : M) :
    wpE (Disk.sem Faults.none) strict True (fun _ => True) (writeTable path id n es)
      (fun t σ => (∃ f, σ = (d.put path f, m)) ∧
        ∀ first rest, es = first :: rest → t = some (tableMeta id first rest))
      (fun _ σ => σ = (d, m)) (d, m) := by
  cases hl : (d path).live with
  | some f => exact wpE_writeTable_exists (by rw [hl]; rfl) trivial fun _ => rfl
  | none =>
    refine wpE_writeTable_serves (serves_put d path) hsort ?_ ?_ ?_ fun hf => hf.elim
    · exact wpE_create trivial hl ⟨trivial, ⟨.empty, rfl⟩, rfl⟩ fun hf => hf.elim
    · rintro hnil _ ⟨f, rfl⟩
      refine ⟨⟨f, rfl⟩, fun first rest hes => ?_⟩
      rw [hnil] at hes
      cases hes
    · rintro first rest hes _ ⟨f, rfl⟩
      refine ⟨⟨f, rfl⟩, fun first' rest' hes' => ?_⟩
      obtain ⟨rfl, rfl⟩ := List.cons.inj (hes.symm.trans hes')
      rfl

end Writer

/-! ### The merge and its reference -/

/-- Source `i` has the version `e`, and no source has a later one of that key: none with
a larger sequence number, and none with the same one in a source before `i`. -/
def Newest (ss : List (List Entry)) (i : Nat) (e : Entry) : Prop :=
  ∃ s, ss[i]? = some s ∧ e ∈ s ∧ ∀ (j : Nat) (s' : List Entry) (v : InternalValue),
    ss[j]? = some s' → (e.1, v) ∈ s' → v.seq < e.2.seq ∨ v.seq = e.2.seq ∧ i ≤ j

theorem Wins.newest {ss : List (List Entry)} {e : Entry} (h : Wins ss e) : ∃ i, Newest ss i e := by
  obtain ⟨i, s, hi, he, hwin⟩ := h
  refine ⟨i, s, hi, he, fun j s' v hj hv => ?_⟩
  rcases hwin j s' v hj hv with hlt | ⟨_, hseq⟩
  · exact absurd hlt (lt_irrefl _)
  · exact hseq

/-- A key has one newest version. -/
theorem Newest.unique {ss : List (List Entry)} (hsort : Sorted ss) {key : Bytes}
    {v v' : InternalValue} {i j : Nat} (h : Newest ss i (key, v)) (h' : Newest ss j (key, v')) :
    v = v' := by
  obtain ⟨s, hi, hv, hwin⟩ := h
  obtain ⟨s', hj, hv', hwin'⟩ := h'
  have h1 := hwin j s' v' hj hv'
  have h2 := hwin' i s v hi hv
  dsimp only at h1 h2
  have hij : i = j := by omega
  subst hij
  rw [hi] at hj
  obtain rfl := Option.some.inj hj
  have hs := hsort s (List.mem_of_getElem? hi)
  have e1 := hs.layerOf_eq_some.mpr hv
  have e2 := hs.layerOf_eq_some.mpr hv'
  rw [e1] at e2
  exact Option.some.inj e2

theorem Merged.mem_iff {ss : List (List Entry)} {out : List Entry} (h : Merged ss out)
    (hsort : Sorted ss) (e : Entry) : e ∈ out ↔ ∃ i, Newest ss i e := by
  refine ⟨fun he => (h.wins e he).newest, ?_⟩
  rintro ⟨i, hnew⟩
  obtain ⟨s, hi, hes, -⟩ := id hnew
  obtain ⟨v, hv⟩ := h.covers s (List.mem_of_getElem? hi) e hes
  obtain ⟨j, hnew'⟩ := (h.wins _ hv).newest
  obtain ⟨key, v'⟩ := e
  rw [hnew.unique hsort hnew']
  exact hv

/-- **The merge equals its reference.**  For any ascending sources the iterator ends,
and its keys ascend; they are the keys of the sources, each with its newest version;
`live` drops the tombstones among these; and a writer that is fed from the iterator,
filtered or not, does not return `Unsorted`, whatever the storage does. -/
theorem merge_reference [TableHashing] {ss : List (List Entry)} (hsort : Sorted ss) :
    ∃ out, Yields MergeIterator.next (.new ss) out ∧ Ascending out ∧
      (∀ key, (∃ v, (key, v) ∈ out) ↔ ∃ s ∈ ss, ∃ v, (key, v) ∈ s) ∧
      (∀ e, e ∈ out ↔ ∃ i, Newest ss i e) ∧
      Yields LiveIter.next ⟨.new ss⟩
        (out.filterMap fun e => e.2.asValue.map fun v => (e.1, v)) ∧
      ∀ (keep : Entry → Bool) (path : Path) (id n : Nat) 
          (r : Except CompactionError (Option TableMeta)),
        Completes (memSem AnyStorage False) (writeTable path id n (out.filter keep)).run ((), ())
          r ((), ()) → r ≠ .error (.ssTable .unsorted) := by
  have hm := Merged.toList hsort
  have hy := (Streams.new ss).yields hsort
  refine ⟨_, hy, hm.ascending, fun key => ⟨?_, ?_⟩, hm.mem_iff hsort, LiveIter.yields hy, ?_⟩
  · rintro ⟨v, hv⟩
    obtain ⟨i, s, hi, hs, -⟩ := hm.wins _ hv
    exact ⟨s, List.mem_of_getElem? hi, v, hs⟩
  · rintro ⟨s, hs, v, hv⟩
    exact hm.covers s hs _ hv
  · intro keep path id n r hrun he
    have hwp : wpE AnyStorage False True (fun _ => True)
        (writeTable path id n ((MergeIterator.new ss).toList.filter keep)) (fun _ _ => True)
        (fun err _ => err ≠ .ssTable .unsorted) ((), ()) :=
      wpE_writeTable_any (hm.ascending.filter keep) ()
    have hout := (wp_completes (wpE_iff.mp hwp) hrun).2
    rw [he] at hout
    exact hout rfl

/-- Two sources with a common key, and a source that is at its end. -/
theorem merge_reference_demo : letI := TableHashing.emptyKey
    ∃ out, Yields MergeIterator.next
        (.new [[([1], ⟨1, .tombstone⟩)], [([1], ⟨2, .value [7]⟩)], []]) out ∧ Ascending out := by
  have hsort : Sorted [[([1], ⟨1, .tombstone⟩)], [([1], ⟨2, .value [7]⟩)], []] := by
    intro s hs
    rcases List.mem_cons.mp hs with rfl | hs
    · exact List.pairwise_singleton _ _
    · rcases List.mem_cons.mp hs with rfl | hs
      · exact List.pairwise_singleton _ _
      · rw [List.mem_singleton.mp hs]
        exact .nil
  obtain ⟨out, hy, ha, -⟩ := @merge_reference TableHashing.emptyKey _ hsort
  exact ⟨out, hy, ha⟩

end AccretionDb
