import AccretionDb.Wal.Image

/-! # What the log operations do

Specifications of `append`, `reset` and `open` on the abstract storage, for the
storages that never fail but for an append to a segment, and then write all of a
frame or nothing of it (`Tame`).  Each says what the log is afterwards, and what
a power loss on the way can read back.  What else lies in the directory is a
frame `I` (`Beside`): it is left alone, but for a `sync_dir`.
-/

namespace AccretionDb.Wal

open CrashLogic

/-- No call fails but an append to a segment, which then writes its frame whole
or not at all. -/
structure Tame (dir : Dir) (e : Faults) : Prop where
  fail : ∀ o, ¬ e.fail o
  short : ∀ id data n, n ≤ data.length → e.short (segmentPath dir id) data n →
    n = 0 ∨ n = data.length

theorem Tame.none (dir : Dir) : Tame dir Faults.none := ⟨fun _ h => h, fun _ _ _ _ h => h.elim⟩

/-- The files of the log. -/
def Own (dir : Dir) (p : Path) : Prop := ∃ id, p = segmentPath dir id ∨ p = tmpPath dir id

/-- A condition on what lies beside the log. -/
structure Beside (dir : Dir) (I : Disk → Prop) : Prop where
  update : ∀ d p s, Own dir p → I d → I (Function.update d p s)
  commit : ∀ d, I d → I (d.commit dir)

theorem Beside.true (dir : Dir) : Beside dir fun _ => True :=
  ⟨fun _ _ _ _ _ => trivial, fun _ _ => trivial⟩

theorem Beside.segment {dir : Dir} {I : Disk → Prop} (hI : Beside dir I) {d : Disk} (id : Nat)
    (s : Slot) (h : I d) : I (Function.update d (segmentPath dir id) s) :=
  hI.update d _ s ⟨id, Or.inl rfl⟩ h

theorem Beside.tmp {dir : Dir} {I : Disk → Prop} (hI : Beside dir I) {d : Disk} (id : Nat)
    (s : Slot) (h : I d) : I (Function.update d (tmpPath dir id) s) :=
  hI.update d _ s ⟨id, Or.inr rfl⟩ h

theorem tmpPath_ne (dir : Dir) (n : SegName) (j : Nat) : n.path dir ≠ tmpPath dir j :=
  SegName.path_ne_of (by rintro ⟨i, _ | _⟩ <;> nofun) n

theorem foldl_max_concat (ids : List Nat) (a : Nat) (h : ∀ id ∈ ids, id < a) :
    (ids ++ [a]).foldl max 0 = a := by
  have hle : ∀ (ids : List Nat) (n : Nat), n ≤ a → (∀ id ∈ ids, id < a) → ids.foldl max n ≤ a := by
    intro ids
    induction ids with
    | nil => exact fun n hn _ => hn
    | cons id ids ih =>
      intro n hn h
      have hid := h id List.mem_cons_self
      exact ih (max n id) (by omega) fun j hj => h j (List.mem_cons_of_mem _ hj)
  rw [List.foldl_append]
  have := hle ids 0 (Nat.zero_le _) h
  show max (ids.foldl max 0) a = a
  omega

/-- Deleting segments takes them from the process, not from a power loss. -/
theorem wpE_deleteAll {M : Type} {cfg : Config} {e : Faults} {strict H : Prop} {I : Disk → Prop}
    {C : Disk × M → Prop} {m : M} {d₀ : Disk} {Q : Unit → Disk × M → Prop}
    {R : StorageError → Disk × M → Prop}
    (herr : (∃ o, e.fail o) → ∀ err d, C (d, m) → R err (d, m)) (hI : Beside cfg.dir I)
    (hC : ∀ d, (∀ n : SegName, (d (n.path cfg.dir)).durable = (d₀ (n.path cfg.dir)).durable) →
      I d → C (d, m)) :
    ∀ (ids : List Nat) (d : Disk), ids.Nodup →
      (∀ id ∈ ids, (d (segmentPath cfg.dir id)).live.isSome) →
      (∀ n : SegName, (d (n.path cfg.dir)).durable = (d₀ (n.path cfg.dir)).durable) → I d →
      (∀ d', (∀ n : SegName, (d' (n.path cfg.dir)).durable = (d₀ (n.path cfg.dir)).durable) →
        (∀ id, (d' (segmentPath cfg.dir id)).live =
          if id ∈ ids then none else (d (segmentPath cfg.dir id)).live) →
        (∀ id, d' (signedPath cfg.dir id) = d (signedPath cfg.dir id)) → I d' → Q () (d', m)) →
      wpE (Disk.sem e) strict H C (deleteAll (ids.map fun id => (id, segmentPath cfg.dir id))) Q R
        (d, m) := by
  intro ids
  induction ids with
  | nil =>
    intro d _ _ hd hi hok
    exact wpE_pure.mpr ⟨hC d hd hi, hok d hd (fun id => by simp) (fun _ => rfl) hi⟩
  | cons id ids ih =>
    intro d hn hlive hd hi hok
    obtain ⟨hid, hn⟩ := List.nodup_cons.mp hn
    let path := segmentPath cfg.dir id
    let d₁ : Disk := Function.update d path (d path).unlink
    have hne : ∀ j, j ≠ id → segmentPath cfg.dir j ≠ path := fun j hj e => hj (segmentPath_inj e)
    have hd₁ : ∀ n : SegName, (d₁ (n.path cfg.dir)).durable = (d₀ (n.path cfg.dir)).durable := by
      intro n
      rw [← hd n]
      by_cases hn : n.path cfg.dir = path
      · rw [hn]
        show (Function.update d path _ path).durable = _
        rw [Function.update_self, Slot.durable_unlink]
      · show (Function.update d path _ _).durable = _
        rw [Function.update_of_ne hn]
    have hl₁ : ∀ j, (d₁ (segmentPath cfg.dir j)).live =
        if j = id then none else (d (segmentPath cfg.dir j)).live := by
      intro j
      by_cases hj : j = id
      · subst hj
        show (Function.update d path _ path).live = _
        rw [Function.update_self, Slot.live_unlink, if_pos rfl]
      · show (Function.update d path _ _).live = _
        rw [Function.update_of_ne (hne j hj), if_neg hj]
    have hi₁ : I d₁ := hI.segment id _ hi
    refine wpE_bind.mpr (wpE_delete (hC d hd hi) (hlive id List.mem_cons_self)
      ⟨hC d₁ hd₁ hi₁, ?_⟩ fun hf _ => herr ⟨_, hf⟩ _ d (hC d hd hi))
    refine ih d₁ hn (fun j hj => ?_) hd₁ hi₁ fun d' hd' hl' hs' hi' =>
      hok d' hd' (fun j => ?_) (fun j => ?_) hi'
    · have hji : j ≠ id := fun e => hid (e ▸ hj)
      rw [hl₁, if_neg hji]
      exact hlive j (List.mem_cons_of_mem _ hj)
    · rw [hl', hl₁]
      by_cases hj : j ∈ ids
      · rw [if_pos hj, if_pos (List.mem_cons_of_mem _ hj)]
      · by_cases hji : j = id
        · rw [if_neg hj, if_pos hji, if_pos (hji ▸ List.mem_cons_self)]
        · have : j ∉ id :: ids := fun h => (List.mem_cons.mp h).elim hji hj
          rw [if_neg hj, if_neg hji, if_neg this]
    · rw [hs']
      exact Function.update_of_ne (signedPath_ne cfg.dir j id) ..

/-- The scratch file takes the place of the segment. -/
theorem slot_replaced {dir : Dir} {d : Disk} {t : Nat} {s s' s'' : Slot} (n : SegName) :
    Function.update (Function.update (Function.update d (tmpPath dir t) s) (segmentPath dir t) s')
        (tmpPath dir t) s'' (n.path dir) =
      if n = .plain t then s' else d (n.path dir) := by
  rw [Function.update_of_ne (tmpPath_ne dir n t)]
  by_cases hn : n = .plain t
  · subst hn
    rw [if_pos rfl]
    exact Function.update_self ..
  · have hpath : n.path dir ≠ segmentPath dir t := SegName.path_ne hn
    rw [if_neg hn, Function.update_of_ne hpath, Function.update_of_ne (tmpPath_ne dir n t)]

/-- The end of the rewrite: while it is in the scratch file, only the slot of that changes. -/
theorem wpE_replaceSegment {M : Type} {cfg : Config} {e : Faults} {strict H : Prop}
    {I : Disk → Prop} {C : Disk × M → Prop} {m : M} {d : Disk} {t : Nat} {keep : Bytes} {s : Slot}
    {Q : Unit → Disk × M → Prop} {R : StorageError → Disk × M → Prop} (hI : Beside cfg.dir I)
    (hC : ∀ d', (∀ n : SegName, (d' (n.path cfg.dir)).durable = (d (n.path cfg.dir)).durable) →
      I d' → C (d', m)) (hi : I d)
    (hok : ∀ d', (∀ n : SegName, d' (n.path cfg.dir) =
        if n = .plain t then .kept ⟨keep, []⟩ else (d (n.path cfg.dir)).commit) →
      I d' → C (d', m) ∧ Q () (d', m))
    (herr : e.Any → ∀ err s, R err (Function.update d (tmpPath cfg.dir t) s, m))
    (herr' : e.fail (.syncDir cfg.dir) → ∀ err d', (∀ n : SegName, d' (n.path cfg.dir) =
        if n = .plain t then (d (segmentPath cfg.dir t)).link ⟨keep, []⟩
        else d (n.path cfg.dir)) → I d' → R err (d', m))
    (hs : e.Any ∨ s.live = none) :
    wpE (Disk.sem e) strict H C (do
      storage (.create (tmpPath cfg.dir t))
      let _at ← storage (.append (tmpPath cfg.dir t) keep)
      storage (.syncFile (tmpPath cfg.dir t))
      storage (.rename (tmpPath cfg.dir t) (segmentPath cfg.dir t))
      storage (.syncDir cfg.dir)) Q R (Function.update d (tmpPath cfg.dir t) s, m) := by
  let path := segmentPath cfg.dir t
  let tmp := tmpPath cfg.dir t
  have hscratch : ∀ s, C (Function.update d tmp s, m) := by
    refine fun s => hC _ (fun n => ?_) (hI.tmp t s hi)
    rw [Function.update_of_ne (tmpPath_ne cfg.dir n t)]
  have hfresh : ∀ b, ¬ (s.link b).linked := by
    intro b
    cases s <;> exact fun h => h
  let s₁ := s.link .empty
  have hl₁ : s₁.live = some .empty := Slot.live_link ..
  have hup : ∀ s s' : Slot, Function.update (Function.update d tmp s) tmp s' =
      Function.update d tmp s' := fun s s' => Function.update_idem ..
  have hat : ∀ s : Slot, Function.update d tmp s tmp = s := fun s => Function.update_self ..
  cases hl : s.live with
  | some b' =>
    have ha : e.Any := hs.resolve_right fun hn => by
      rw [hn] at hl
      cases hl
    exact wpE_bind.mpr (wpE_create_exists (hscratch s) (by rw [hat, hl]; rfl) (herr ha _ _)
      fun _ _ => herr ha _ _)
  | none =>
  refine wpE_bind.mpr (wpE_create (hscratch s) (by rw [hat]; exact hl) ?_
    fun hf _ => herr (Faults.any_of_fail hf) _ _)
  rw [hup, hat]
  refine ⟨hscratch _, wpE_bind.mpr (wpE_append (hscratch _) (by rw [hat]; exact hl₁) ?_
    (fun hf _ => herr (Faults.any_of_fail hf) _ _) fun n _ hs msg => ?_)⟩
  swap
  · rw [hup]
    exact ⟨hscratch _, herr (Faults.any_of_short hs) _ _⟩
  rw [hup, hat]
  let s₂ := s₁.edit (·.append keep)
  have hl₂ : s₂.live = some ⟨[], keep⟩ := by
    rw [Slot.live_edit, hl₁]
    rfl
  refine ⟨hscratch _, wpE_bind.mpr (wpE_syncFile (hscratch s₂) (by rw [hat]; exact hl₂) ?_
    fun hf _ => herr (Faults.any_of_fail hf) _ _)⟩
  rw [hup, hat]
  let s₃ := s₂.edit Blob.sync
  have hl₃ : s₃.live = some ⟨keep, []⟩ := by
    rw [Slot.live_edit, hl₂]
    rfl
  have hnot : ¬ s₃.linked := by
    have h : ∀ (f : Blob → Blob) (s : Slot), (s.edit f).linked ↔ s.linked := by
      intro f s
      cases s <;> exact Iff.rfl
    rw [h, h]
    exact hfresh _
  have hne : tmp ≠ path := fun h => tmpPath_ne cfg.dir (.plain t) t h.symm
  refine ⟨hscratch _, wpE_bind.mpr (wpE_rename (hscratch s₃) (by rw [hat]; exact hl₃) hne
    (by rw [hat]; exact hnot) ?_ fun hf _ => herr (Faults.any_of_fail hf) _ _)⟩
  rw [hat, Function.update_of_ne hne.symm]
  let d₄ : Disk := Function.update (Function.update (Function.update d tmp s₃) path
    ((d path).link ⟨keep, []⟩)) tmp s₃.unlink
  have hslot₄ : ∀ n : SegName, d₄ (n.path cfg.dir) =
      if n = .plain t then (d path).link ⟨keep, []⟩ else d (n.path cfg.dir) := slot_replaced
  have hi₄ : I d₄ := hI.tmp t _ (hI.segment t _ (hI.tmp t _ hi))
  have hc₄ : C (d₄, m) := by
    refine hC _ (fun n => ?_) hi₄
    rw [hslot₄]
    by_cases hn : n = .plain t
    · rw [if_pos hn, Slot.durable_link, hn]
      rfl
    · rw [if_neg hn]
  refine ⟨hc₄, wpE_syncDir hc₄ (hok _ (fun n => ?_) (hI.commit _ hi₄))
    fun hf _ => herr' hf _ _ hslot₄ hi₄⟩
  rw [commit_name]
  show (d₄ (n.path cfg.dir)).commit = _
  rw [hslot₄]
  by_cases hn : n = .plain t
  · rw [if_pos hn, if_pos hn]
    exact Slot.commit_eq_kept (Slot.live_link ..)
  · rw [if_neg hn, if_neg hn]

/-- Cutting the tail segment off changes what a power loss finds only with the last
`sync_dir`, and then to the valid prefix. -/
theorem wpE_truncateTail_any {M : Type} {cfg : Config} {e : Faults} {strict H : Prop} {I : Disk → Prop}
    {C : Disk × M → Prop} {m : M} {d : Disk} {t validLen : Nat} {b : Blob} {Q : Unit → Disk × M → Prop}
    {R : StorageError → Disk × M → Prop} (hI : Beside cfg.dir I)
    (hC : ∀ d', (∀ n : SegName, (d' (n.path cfg.dir)).durable = (d (n.path cfg.dir)).durable) →
      I d' → C (d', m))
    (ht : (d (segmentPath cfg.dir t)).live = some b) (hlen : validLen < b.content.length) (hi : I d)
    (hok : ∀ d', (∀ n : SegName, d' (n.path cfg.dir) =
        if n = .plain t then .kept ⟨b.content.take validLen, []⟩
        else (d (n.path cfg.dir)).commit) → I d' → C (d', m) ∧ Q () (d', m))
    (herr : e.Any → ∀ err d', (∀ n : SegName, d' (n.path cfg.dir) = d (n.path cfg.dir)) →
      I d' → R err (d', m))
    (herr' : e.fail (.syncDir cfg.dir) → ∀ err d', (∀ n : SegName, d' (n.path cfg.dir) =
        if n = .plain t then (d (segmentPath cfg.dir t)).link ⟨b.content.take validLen, []⟩
        else d (n.path cfg.dir)) → I d' → R err (d', m)) :
    wpE (Disk.sem e) strict H C (truncateTail cfg.dir t validLen) Q R (d, m) := by
  let path := segmentPath cfg.dir t
  let tmp := tmpPath cfg.dir t
  have hc : C (d, m) := hC d (fun _ => rfl) hi
  have hpath : (d path).live = some b := ht
  have hscratch : ∀ s, C (Function.update d tmp s, m) := by
    refine fun s => hC _ (fun n => ?_) (hI.tmp t s hi)
    rw [Function.update_of_ne (tmpPath_ne cfg.dir n t)]
  have hbad : e.Any → ∀ err s, R err (Function.update d tmp s, m) :=
    fun ha err s => herr ha err _ (fun n => Function.update_of_ne (tmpPath_ne cfg.dir n t) ..)
      (hI.tmp t s hi)
  have hbad₀ : e.Any → ∀ err, R err (d, m) := fun ha err => herr ha err d (fun _ => rfl) hi
  refine wpE_bind.mpr (wpE_len hc (fun b' hb' => ?_) (fun hn => ?_) fun hf _ =>
    hbad₀ (Faults.any_of_fail hf) _)
  swap
  · change (d path).live = none at hn
    rw [hpath] at hn
    cases hn
  change (d path).live = some b' at hb'
  rw [hpath] at hb'
  obtain rfl := Option.some.inj hb'
  rw [if_neg (by omega)]
  refine wpE_bind.mpr (wpE_readAll hc ?_ fun _ hf _ => hbad₀ (Faults.any_of_fail hf) _)
  have hkeep : ((d (segmentPath cfg.dir t)).live.elim [] Blob.content).take validLen =
      b.content.take validLen := by
    rw [ht]
    rfl
  rw [hkeep]
  refine wpE_bind.mpr (wpE_attempt (wpE_delete_any hc (fun _ => ⟨hscratch _, ?_⟩) fun hn _ => ?_))
  · exact wpE_replaceSegment hI hC hi hok hbad herr' (Or.inr (Slot.live_unlink _))
  · have hrest : wpE (Disk.sem e) strict H C _ Q R (Function.update d tmp (d tmp), m) :=
      wpE_replaceSegment hI hC hi hok hbad herr' (hn.symm.imp Faults.any_of_fail id)
    rw [Function.update_eq_self] at hrest
    exact hrest

/-- On a tame storage only a short append goes wrong, and it leaves the segments alone. -/
theorem wpE_truncateTail {M : Type} {cfg : Config} {e : Faults} {strict H : Prop} {I : Disk → Prop}
    {C : Disk × M → Prop} {m : M} {d : Disk} {t validLen : Nat} {b : Blob} {Q : Unit → Disk × M → Prop}
    {R : StorageError → Disk × M → Prop} (he : Tame cfg.dir e) (hI : Beside cfg.dir I)
    (hC : ∀ d', (∀ n : SegName, (d' (n.path cfg.dir)).durable = (d (n.path cfg.dir)).durable) →
      I d' → C (d', m))
    (ht : (d (segmentPath cfg.dir t)).live = some b) (hlen : validLen < b.content.length) (hi : I d)
    (hok : ∀ d', (∀ n : SegName, d' (n.path cfg.dir) =
        if n = .plain t then .kept ⟨b.content.take validLen, []⟩
        else (d (n.path cfg.dir)).commit) → I d' → C (d', m) ∧ Q () (d', m))
    (herr : (∃ p data n, e.short p data n) → ∀ err d',
      (∀ n : SegName, d' (n.path cfg.dir) = d (n.path cfg.dir)) → I d' → R err (d', m)) :
    wpE (Disk.sem e) strict H C (truncateTail cfg.dir t validLen) Q R (d, m) :=
  wpE_truncateTail_any hI hC ht hlen hi hok
    (fun ha => herr (ha.resolve_left fun ⟨o, hf⟩ => he.fail o hf)) fun hf => absurd hf (he.fail _)

/-- Start a segment. -/
def start (dir : Dir) (d : Disk) (a : Nat) : Disk :=
  Function.update d (segmentPath dir a) ((d (segmentPath dir a)).link .empty)

theorem start_of_ne {dir : Dir} {a : Nat} {n : SegName} (h : n ≠ .plain a) (d : Disk) :
    start dir d a (n.path dir) = d (n.path dir) :=
  Function.update_of_ne (SegName.path_ne h) ..

theorem start_at (dir : Dir) (d : Disk) (a : Nat) :
    start dir d a (segmentPath dir a) = (d (segmentPath dir a)).link .empty := Function.update_self ..

variable [Hashing]

/-- The writer appends to this segment. -/
structure Writes (dir : Dir) (a : Nat) (w : Writer) : Prop where
  id : w.active.id = a
  path : w.active.path = segmentPath dir a

/-- The log is in order, and `waiting` are the payloads a failed batch left in the
queue. -/
structure Ready (cfg : Config) (d : Disk) (st : State) (L : Layout) (waiting : List Bytes) :
    Prop where
  holds : Holds cfg.dir d L
  writes : Writes cfg.dir L.active st.writer
  idle : st.coord.leaderActive = false
  queue : st.coord.queue.map Prod.snd = waiting.map encode
  behind : st.coord.syncedThrough ≤ st.coord.nextSeq
  group : cfg.durability ≠ .groupCommit → waiting = []

/-! ### Append -/

section Append

variable {cfg : Config} {e : Faults} {strict H : Prop} {I : Disk → Prop}
variable {k : Nat} {all : List Bytes}

theorem wpE_segment_append {C : Disk × Writer → Prop} {d : Disk} {w : Writer} {L : Layout}
    {p : Bytes} {Q : Unit → Disk × Writer → Prop} {R : StorageError → Disk × Writer → Prop}
    (he : Tame cfg.dir e) (hI : Beside cfg.dir I) (hp : p.length < 2 ^ 32)
    (hC : ∀ d w, DurLog cfg.dir d k all → I d → C (d, w))
    (hL : Holds cfg.dir d L) (hw : Writes cfg.dir L.active w) (hi : I d)
    (hall : L.log ++ [p] <+: all) (hk : k ≤ L.durableLen)
    (hok : ∀ d' w', Holds cfg.dir d' (L.push p) → Writes cfg.dir (L.push p).active w' → I d' →
      Q () (d', w'))
    (herr : (∃ p data n, e.short p data n) → ∀ err d' L', Holds cfg.dir d' L' →
      Writes cfg.dir L'.active w → L' = L ∨ L' = L.push p → I d' → R err (d', w)) :
    wpE (Disk.sem e) strict H C (Act.zoom Writer.segment (Segment.append (encode p))) Q R
      (d, w) := by
  let path := segmentPath cfg.dir L.active
  let d' (data : Bytes) : Disk := Function.update d path ((d path).edit (·.append data))
  have hlive : (d path).live = some ⟨frames L.synced, frames L.pending⟩ := by
    rw [hL.active_slot]
    rfl
  have hd' : Holds cfg.dir (d' (encode p)) (L.push p) := hL.push hp
  have hi' : ∀ data, I (d' data) := fun data => hI.segment _ _ hi
  have hc : ∀ w, C (d, w) := fun w =>
    hC d w (hL.spares ((List.prefix_append _ _).trans hall) hk) hi
  have hc' : ∀ w, C (d' (encode p), w) := by
    refine fun w => hC _ w (hd'.spares ?_ hk) (hi' _)
    rw [Layout.log_push]
    exact hall
  refine wpE_zoom Writer.segment (wpE_bind.mpr (wpE_get (hc _) ?_))
  show wpE _ _ _ _ (storage (.append w.active.path (encode p)) >>= _) _ _ _
  rw [hw.path]
  refine wpE_bind.mpr (wpE_append (hc _) hlive ?_ (fun hf => absurd hf (he.fail _)) ?_)
  · exact ⟨hc' _, wpE_modify (hc' _) (hc' _) (hok _ _ hd' ⟨hw.id, hw.path⟩ (hi' _))⟩
  · intro n hn hs msg
    rcases he.short _ _ n hn hs with rfl | rfl
    · have hnop : d' ((encode p).take 0) = d := by
        simp only [d', path, hL.active_slot, List.take_zero, Slot.edit_kept, Blob.append,
          List.append_nil]
        rw [← hL.active_slot, Function.update_eq_self]
      show C (d' _, w) ∧ R _ (d' _, w)
      rw [hnop]
      exact ⟨hc _, herr ⟨_, _, _, hs⟩ _ _ L hL hw (Or.inl rfl) hi⟩
    · rw [List.take_length]
      exact ⟨hc' _, herr ⟨_, _, _, hs⟩ _ _ _ hd' ⟨hw.id, hw.path⟩ (Or.inr rfl) (hi' _)⟩

theorem wpE_segment_sync {C : Disk × Writer → Prop} {d : Disk} {w : Writer} {L : Layout}
    {Q : Unit → Disk × Writer → Prop} {R : StorageError → Disk × Writer → Prop}
    (he : Tame cfg.dir e) (hI : Beside cfg.dir I)
    (hC : ∀ d w, DurLog cfg.dir d k all → I d → C (d, w))
    (hL : Holds cfg.dir d L) (hw : Writes cfg.dir L.active w) (hi : I d)
    (hall : L.log <+: all) (hk : k ≤ L.durableLen)
    (hok : ∀ d', Holds cfg.dir d' L.sync → I d' → Q () (d', w)) :
    wpE (Disk.sem e) strict H C (Act.zoom Writer.segment Segment.sync) Q R (d, w) := by
  have hlive : (d (segmentPath cfg.dir L.active)).live =
      some ⟨frames L.synced, frames L.pending⟩ := by
    rw [hL.active_slot]
    rfl
  have hc : C (d, w) := hC d w (hL.spares hall hk) hi
  have hk' : k ≤ L.sync.durableLen := by
    rw [Layout.durableLen_sync]
    exact hk.trans L.durableLen_le
  have hall' : L.sync.log <+: all := by rwa [Layout.log_sync]
  have hi' := hI.segment L.active
    ((d (segmentPath cfg.dir L.active)).edit Blob.sync) hi
  refine wpE_zoom Writer.segment (wpE_bind.mpr (wpE_get hc ?_))
  show wpE _ _ _ _ (storage (.syncFile w.active.path)) _ _ _
  rw [hw.path]
  exact wpE_syncFile hc hlive ⟨hC _ _ (hL.sync.spares hall' hk') hi', hok _ hL.sync hi'⟩
    fun hf => absurd hf (he.fail _)

theorem wpE_maybeRotate {C : Disk × Writer → Prop} {d : Disk} {w : Writer} {L : Layout}
    {Q : Unit → Disk × Writer → Prop} {R : StorageError → Disk × Writer → Prop}
    (he : Tame cfg.dir e) (hI : Beside cfg.dir I) (hstrict : strict)
    (hC : ∀ d w, DurLog cfg.dir d k all → I d → C (d, w))
    (hL : Holds cfg.dir d L) (hw : Writes cfg.dir L.active w) (hi : I d)
    (hall : L.log <+: all) (hk : k ≤ L.durableLen)
    (hstay : Q () (d, w))
    (hroll : ∀ d' w', Holds cfg.dir d' L.sync.rotate → Writes cfg.dir L.sync.rotate.active w' →
      I d' → Q () (d', w')) :
    wpE (Disk.sem e) strict H C (maybeRotate cfg) Q R (d, w) := by
  have hc : C (d, w) := hC d w (hL.spares hall hk) hi
  refine wpE_bind.mpr (wpE_get hc ?_)
  by_cases hlt : w.active.writeOffset < cfg.segmentSize
  · rw [if_pos hlt]
    exact wpE_pure.mpr ⟨hc, hstay⟩
  · rw [if_neg hlt]
    refine wpE_bind.mpr (wpE_wrappingSucc hc fun hword => ?_)
    rw [hw.id] at hword ⊢
    rw [Nat.mod_eq_of_lt (hword hstrict)]
    refine wpE_bind.mpr (wpE_segment_sync he hI hC hL hw hi hall hk fun d₁ hL₁ hi₁ => ?_)
    have hk₁ : k ≤ L.sync.durableLen := by
      rw [Layout.durableLen_sync]
      exact hk.trans L.durableLen_le
    have hall₁ : L.sync.log <+: all := by rwa [Layout.log_sync]
    have hdur₁ := hL₁.spares hall₁ hk₁
    have habs : d₁ (segmentPath cfg.dir (L.active + 1)) = .absent :=
      hL₁.absent_of_gt (Nat.lt_succ_self L.active)
    -- the new file's name is not durable yet, so a power loss sees the old log
    have hdur₂ : DurLog cfg.dir (Function.update d₁ (segmentPath cfg.dir (L.active + 1))
        ((d₁ (segmentPath cfg.dir (L.active + 1))).link .empty)) k all := by
      refine hdur₁.congr fun n => ?_
      by_cases hn : n.path cfg.dir = segmentPath cfg.dir (L.active + 1)
      · rw [hn, Function.update_self, Slot.durable_link]
      · rw [Function.update_of_ne hn]
    have hi₂ := hI.segment (L.active + 1)
      ((d₁ (segmentPath cfg.dir (L.active + 1))).link .empty) hi₁
    have hL₃ : Holds cfg.dir _ L.sync.rotate := hL₁.rotate rfl (hword hstrict)
    have hall₃ : L.sync.rotate.log <+: all := by rwa [Layout.log_rotate]
    have hk₃ : k ≤ L.sync.rotate.durableLen := by
      rw [Layout.durableLen_rotate, Layout.log_sync]
      exact hk.trans L.durableLen_le
    have hi₃ := hI.commit _ hi₂
    refine wpE_bind.mpr (wpE_bind.mpr (wpE_create (hC _ _ hdur₁ hi₁) (by rw [habs]; rfl) ?_
      fun hf => absurd hf (he.fail _)))
    refine ⟨hC _ _ hdur₂ hi₂, wpE_pure.mpr ⟨hC _ _ hdur₂ hi₂, ?_⟩⟩
    refine wpE_bind.mpr (wpE_syncDir (hC _ _ hdur₂ hi₂) ?_ fun hf => absurd hf (he.fail _))
    have hc₃ : ∀ w, C (_, w) := fun w => hC _ w (hL₃.spares hall₃ hk₃) hi₃
    exact ⟨hc₃ _, wpE_modify (hc₃ _) (hc₃ _) (hroll _ _ hL₃ ⟨rfl, rfl⟩ hi₃)⟩

/-- The log after some payloads were written and synced. -/
structure Wrote (cfg : Config) (L : Layout) (ps : List Bytes) (d : Disk) (w : Writer)
    (L' : Layout) : Prop where
  holds : Holds cfg.dir d L'
  writes : Writes cfg.dir L'.active w
  log : L'.log = L.log ++ ps
  durableLen : L.durableLen ≤ L'.durableLen

theorem wpE_appendAll {C : Disk × Writer → Prop} {Q : Unit → Disk × Writer → Prop}
    {R : StorageError → Disk × Writer → Prop} (he : Tame cfg.dir e) (hI : Beside cfg.dir I)
    (hC : ∀ d w, DurLog cfg.dir d k all → I d → C (d, w)) :
    ∀ (batch : List (Nat × Bytes)) (ps : List Bytes) (d : Disk) (w : Writer) (L : Layout),
      batch.map Prod.snd = ps.map encode → Fits ps → Holds cfg.dir d L → Writes cfg.dir L.active w →
      I d → L.log ++ ps <+: all → k ≤ L.durableLen →
      (∀ d' w', Holds cfg.dir d' (L.pushAll ps) → Writes cfg.dir (L.pushAll ps).active w' → I d' →
        Q () (d', w')) →
      ((∃ p data n, e.short p data n) → ∀ err d' w' qs, qs <+: ps →
        Holds cfg.dir d' (L.pushAll qs) → Writes cfg.dir (L.pushAll qs).active w' → I d' →
        R err (d', w')) →
      wpE (Disk.sem e) strict H C (appendAll batch) Q R (d, w) := by
  intro batch
  induction batch with
  | nil =>
    intro ps d w L hb _ hL hw hi hall hk hok _
    obtain rfl : ps = [] := List.map_eq_nil_iff.mp hb.symm
    rw [Layout.pushAll_nil] at hok
    rw [List.append_nil] at hall
    exact wpE_pure.mpr ⟨hC d w (hL.spares hall hk) hi, hok d w hL hw hi⟩
  | cons b batch ih =>
    intro ps d w L hb hfits hL hw hi hall hk hok herr
    obtain ⟨seq, frame⟩ := b
    cases ps with
    | nil => cases hb
    | cons p ps =>
      rw [List.map_cons, List.map_cons, List.cons.injEq] at hb
      obtain ⟨rfl, hb⟩ := hb
      have hall' : L.log ++ [p] <+: all := by
        refine List.IsPrefix.trans ?_ hall
        rw [List.append_cons L.log p ps]
        exact List.prefix_append _ _
      refine wpE_bind.mpr (wpE_segment_append he hI (hfits p List.mem_cons_self) hC hL hw hi hall'
        hk (fun d₁ w₁ hL₁ hw₁ hi₁ => ?_) (fun hs err d₁ L' hL' hw' hcase hi₁ => ?_))
      · refine ih ps d₁ w₁ (L.push p) hb (fun q hq => hfits q (List.mem_cons_of_mem p hq)) hL₁ hw₁
          hi₁ ?_ hk ?_ ?_
        · rw [Layout.log_push, List.append_assoc, List.singleton_append]
          exact hall
        · rw [Layout.pushAll_push]
          exact hok
        · intro hs err d₂ w₂ qs hqs h1 h2
          rw [Layout.pushAll_push] at h1 h2
          exact herr hs err d₂ w₂ (p :: qs) (List.prefix_cons_inj p |>.mpr hqs) h1 h2
      · rcases hcase with rfl | rfl
        · refine herr hs err d₁ w [] List.nil_prefix ?_ ?_ hi₁
          · rwa [Layout.pushAll_nil]
          · rwa [Layout.pushAll_nil]
        · exact herr hs err d₁ w [p] (List.prefix_cons_inj p |>.mpr List.nil_prefix) hL' hw' hi₁

/-- Sync, and roll if need be. -/
theorem wpE_sync_rotate {C : Disk × Writer → Prop} {d : Disk} {w : Writer} {L : Layout}
    {Q : Unit → Disk × Writer → Prop} {R : StorageError → Disk × Writer → Prop}
    (he : Tame cfg.dir e) (hI : Beside cfg.dir I) (hstrict : strict)
    (hC : ∀ d w, DurLog cfg.dir d k all → I d → C (d, w))
    (hL : Holds cfg.dir d L) (hw : Writes cfg.dir L.active w) (hi : I d)
    (hall : L.log <+: all) (hk : k ≤ L.durableLen)
    (hok : ∀ d' w' L', Wrote cfg L [] d' w' L' → L'.pending = [] → I d' → Q () (d', w')) :
    wpE (Disk.sem e) strict H C
      (Act.zoom Writer.segment Segment.sync >>= fun _ => maybeRotate cfg) Q R (d, w) := by
  refine wpE_bind.mpr (wpE_segment_sync he hI hC hL hw hi hall hk fun d₁ hL₁ hi₁ => ?_)
  have hw₁ : Writes cfg.dir L.sync.active w := ⟨hw.id, hw.path⟩
  have hk₁ : L.durableLen ≤ L.sync.durableLen := by
    rw [Layout.durableLen_sync]
    exact L.durableLen_le
  have hk₂ : L.durableLen ≤ L.sync.sync.rotate.durableLen := by
    rw [Layout.durableLen_rotate, Layout.log_sync, Layout.log_sync]
    exact L.durableLen_le
  refine wpE_maybeRotate he hI hstrict hC hL₁ hw₁ hi₁ (by rwa [Layout.log_sync]) (hk.trans hk₁)
    (hok _ _ _ ⟨hL₁, hw₁, by simp, hk₁⟩ rfl hi₁) fun d₂ w₂ hL₂ hw₂ hi₂ => ?_
  exact hok _ _ _ ⟨hL₂, hw₂, by simp, hk₂⟩ rfl hi₂

theorem wpE_writeBatch {C : Disk × Writer → Prop} {d : Disk} {w : Writer} {L : Layout}
    {batch : List (Nat × Bytes)} {ps : List Bytes} {Q : Unit → Disk × Writer → Prop}
    {R : StorageError → Disk × Writer → Prop}
    (he : Tame cfg.dir e) (hI : Beside cfg.dir I) (hstrict : strict)
    (hC : ∀ d w, DurLog cfg.dir d k all → I d → C (d, w))
    (hb : batch.map Prod.snd = ps.map encode) (hfits : Fits ps)
    (hL : Holds cfg.dir d L) (hw : Writes cfg.dir L.active w) (hi : I d)
    (hall : L.log ++ ps <+: all) (hk : k ≤ L.durableLen)
    (hok : ∀ d' w' L', Wrote cfg L ps d' w' L' → L'.pending = [] → I d' → Q () (d', w'))
    (herr : (∃ p data n, e.short p data n) → ∀ err d' w' L' qs, qs <+: ps →
      Wrote cfg L qs d' w' L' → I d' → R err (d', w')) :
    wpE (Disk.sem e) strict H C (writeBatch cfg batch) Q R (d, w) := by
  refine wpE_bind.mpr (wpE_appendAll he hI hC batch ps d w L hb hfits hL hw hi hall hk ?_ ?_)
  · intro d₁ w₁ hL₁ hw₁ hi₁
    refine wpE_sync_rotate he hI hstrict hC hL₁ hw₁ hi₁ (by rwa [Layout.log_pushAll]) hk
      fun d₂ w₂ L' hwrote hpend hi₂ => ?_
    refine hok d₂ w₂ L' ⟨hwrote.holds, hwrote.writes, ?_, hwrote.durableLen⟩ hpend hi₂
    rw [hwrote.log, Layout.log_pushAll, List.append_nil]
  · intro hs err d₁ w₁ qs hqs hL₁ hw₁ hi₁
    exact herr hs err d₁ w₁ _ qs hqs ⟨hL₁, hw₁, Layout.log_pushAll qs L, Nat.le_refl _⟩ hi₁

omit [Hashing] in
/-- A thread that comes to a group commit with no leader at work writes the whole
queue, its own frame last. -/
theorem wpE_commitGroup {C : Disk × State → Prop} {d : Disk} {st : State} {frame : Bytes}
    {Q : Unit → Disk × State → Prop} {R : StorageError → Disk × State → Prop}
    (hidle : st.coord.leaderActive = false) (hbehind : st.coord.syncedThrough ≤ st.coord.nextSeq)
    (hc : ∀ co, C (d, ⟨st.writer, co⟩))
    (hio : wpE (Disk.sem e) strict H (fun τ => ∀ co, C (τ.1, ⟨τ.2, co⟩))
      (writeBatch cfg (st.coord.queue ++ [(st.coord.nextSeq + 1, frame)]))
      (fun _ τ => Q () (τ.1, ⟨τ.2, [], st.coord.nextSeq + 1, st.coord.nextSeq + 1, false⟩))
      (fun err τ => R err (τ.1, ⟨τ.2, st.coord.queue ++ [(st.coord.nextSeq + 1, frame)],
        st.coord.nextSeq + 1, st.coord.syncedThrough, false⟩)) (d, st.writer)) :
    wpE (Disk.sem e) strict H C (commitGroup cfg frame) Q R (d, st) := by
  obtain ⟨w, queue, nextSeq, syncedThrough, leaderActive⟩ := st
  change leaderActive = false at hidle
  change syncedThrough ≤ nextSeq at hbehind
  subst hidle
  let mySeq := nextSeq + 1
  let batch := queue ++ [(mySeq, frame)]
  let co₁ : Coord := ⟨batch, mySeq, syncedThrough, false⟩
  have hnd : ¬ co₁.durable mySeq := by
    show ¬ mySeq ≤ syncedThrough
    omega
  have hlead : Coord.lead mySeq co₁ = ⟨[], mySeq, syncedThrough, true⟩ := by
    rw [Coord.lead, if_neg (by simp [hnd, co₁])]
  have hhigh : Coord.highest batch mySeq = mySeq := by
    simp only [Coord.highest, batch, List.getLast?_concat, Option.map_some, Option.getD_some]
  refine wpE_bind.mpr (wpE_modifyGet (hc _) (hc _) ?_)
  refine wpE_bind.mpr (wpE_modifyGet (hc _) (hc _) ?_)
  show wpE _ _ _ _ (if co₁.durable mySeq then pure ()
    else if co₁.leaderActive then Act.hang else _) _ _ _
  rw [if_neg hnd, if_neg Bool.false_ne_true]
  refine wpE_bind.mpr (wpE_attempt (wpE_zoom State.writerPart (wpE_mono hio
    (fun τ h => h _) (fun _ τ h hq => ?_) fun err τ h hr => ?_)))
  · refine wpE_bind.mpr (wpE_modify (h _) (h _) (wpE_ofExcept.mpr ⟨h _, ?_⟩))
    have hpub : Coord.publish batch mySeq (Except.ok () : Except StorageError Unit)
        (Coord.lead mySeq co₁) = ⟨[], mySeq, mySeq, false⟩ := by
      rw [hlead]
      show (⟨[], mySeq, max syncedThrough (Coord.highest batch mySeq), false⟩ : Coord) = _
      rw [hhigh, Nat.max_eq_right (by omega)]
    show Q () (τ.1, ⟨τ.2, Coord.publish batch mySeq _ (Coord.lead mySeq co₁)⟩)
    rw [hpub]
    exact hq
  · refine wpE_bind.mpr (wpE_modify (h _) (h _) (wpE_ofExcept.mpr ⟨h _, ?_⟩))
    have hpub : Coord.publish batch mySeq (Except.error err : Except StorageError Unit)
        (Coord.lead mySeq co₁) = ⟨batch, mySeq, syncedThrough, false⟩ := by
      rw [hlead, Coord.publish, List.append_nil]
    show R err (τ.1, ⟨τ.2, Coord.publish batch mySeq _ (Coord.lead mySeq co₁)⟩)
    rw [hpub]
    exact hr

/-- **What `append` does.**  Where it returns, the payload stands at the end of the
log behind those that were waiting, and in a durable mode all of it is synced.
Where it fails, the log has grown by a prefix of these.  A power loss on the way
spares what was synced before. -/
theorem wpE_append_record {C : Disk × State → Prop} {d : Disk} {st : State} {L : Layout}
    {waiting : List Bytes} {p : Bytes} {Q : Unit → Disk × State → Prop}
    {R : StorageError → Disk × State → Prop}
    (he : Tame cfg.dir e) (hI : Beside cfg.dir I) (hstrict : strict)
    (hC : ∀ d st, DurLog cfg.dir d L.durableLen (L.log ++ waiting ++ [p]) → I d → C (d, st))
    (hp : p.length < 2 ^ 32) (hwait : Fits waiting)
    (hr : Ready cfg d st L waiting) (hi : I d)
    (hok : ∀ d' st' L', Ready cfg d' st' L' [] → L'.log = L.log ++ waiting ++ [p] →
      L.durableLen ≤ L'.durableLen → (cfg.durability.isDurable → L'.pending = []) → I d' →
      Q () (d', st'))
    (herr : (∃ p data n, e.short p data n) → ∀ err d' st' L' waiting' qs,
      Ready cfg d' st' L' waiting' → qs <+: waiting ++ [p] → L'.log = L.log ++ qs →
      L.durableLen ≤ L'.durableLen → waiting' = waiting ∨ waiting' = waiting ++ [p] → I d' →
      R err (d', st')) :
    wpE (Disk.sem e) strict H C (append cfg p) Q R (d, st) := by
  obtain ⟨hL, hw, hidle, hqueue, hbehind, hgroup⟩ := hr
  have hc : ∀ st, C (d, st) := fun st =>
    hC d st (hL.spares (by rw [List.append_assoc]; exact List.prefix_append _ _) (Nat.le_refl _)) hi
  cases hmode : cfg.durability with
  | always =>
    obtain rfl : waiting = [] := hgroup (by rw [hmode]; exact nofun)
    rw [List.append_nil] at hC hok
    have happ : append cfg p = commitSyncNow cfg (encode p) := by simp only [append, hmode]
    rw [happ]
    refine wpE_zoom State.writerPart (wpE_bind.mpr (wpE_segment_append he hI hp
      (fun d w => hC d _) hL hw hi (List.prefix_refl _) (Nat.le_refl _) ?_ ?_))
    · intro d₁ w₁ hL₁ hw₁ hi₁
      refine wpE_sync_rotate he hI hstrict (fun d w => hC d _) hL₁ hw₁ hi₁
        (Layout.log_push p L ▸ List.prefix_rfl) (Nat.le_refl _)
        fun d₂ w₂ L' hwrote hpend hi₂ => ?_
      refine hok _ _ L' ⟨hwrote.holds, hwrote.writes, hidle, hqueue, hbehind, fun _ => rfl⟩ ?_
        hwrote.durableLen (fun _ => hpend) hi₂
      rw [hwrote.log, Layout.log_push, List.append_nil]
    · intro hs err d₁ L' hL' hw' hcase hi₁
      refine herr hs err d₁ _ L' [] (L'.log.drop L.log.length)
        ⟨hL', hw', hidle, hqueue, hbehind, fun _ => rfl⟩ ?_ ?_ ?_ (Or.inl rfl) hi₁
      · rcases hcase with rfl | rfl <;> simp
      · rcases hcase with rfl | rfl <;> simp
      · rcases hcase with rfl | rfl <;> simp
  | osBuffered =>
    obtain rfl : waiting = [] := hgroup (by rw [hmode]; exact nofun)
    rw [List.append_nil] at hC hok
    have happ : append cfg p = commitBuffered cfg (encode p) := by simp only [append, hmode]
    have hnot : cfg.durability.isDurable = false := by rw [hmode]; rfl
    rw [happ]
    refine wpE_zoom State.writerPart (wpE_bind.mpr (wpE_segment_append he hI hp
      (fun d w => hC d _) hL hw hi (List.prefix_refl _) (Nat.le_refl _) ?_ ?_))
    · intro d₁ w₁ hL₁ hw₁ hi₁
      refine wpE_maybeRotate he hI hstrict (fun d w => hC d _) hL₁ hw₁ hi₁
        (Layout.log_push p L ▸ List.prefix_rfl) (Nat.le_refl _) ?_ ?_
      · refine hok _ _ _ ⟨hL₁, hw₁, hidle, hqueue, hbehind, fun _ => rfl⟩ (Layout.log_push p L)
          (Nat.le_refl _) (fun h => ?_) hi₁
        rw [hnot] at h
        cases h
      · intro d₂ w₂ hL₂ hw₂ hi₂
        have hlen : L.durableLen ≤ (L.push p).sync.rotate.durableLen := by
          have := (L.push p).durableLen_le
          rwa [Layout.durableLen_rotate, Layout.log_sync]
        refine hok _ _ _ ⟨hL₂, hw₂, hidle, hqueue, hbehind, fun _ => rfl⟩ ?_ hlen (fun _ => rfl) hi₂
        simp
    · intro hs err d₁ L' hL' hw' hcase hi₁
      refine herr hs err d₁ _ L' [] (L'.log.drop L.log.length)
        ⟨hL', hw', hidle, hqueue, hbehind, fun _ => rfl⟩ ?_ ?_ ?_ (Or.inl rfl) hi₁
      · rcases hcase with rfl | rfl <;> simp
      · rcases hcase with rfl | rfl <;> simp
      · rcases hcase with rfl | rfl <;> simp
  | groupCommit =>
    have happ : append cfg p = commitGroup cfg (encode p) := by simp only [append, hmode]
    rw [happ]
    have hbatch : (st.coord.queue ++ [(st.coord.nextSeq + 1, encode p)]).map Prod.snd =
        (waiting ++ [p]).map encode := by
      simp only [List.map_append, List.map_cons, List.map_nil, hqueue]
    have hfits : Fits (waiting ++ [p]) := hwait.append fun q hq => List.mem_singleton.mp hq ▸ hp
    refine wpE_commitGroup hidle hbehind (fun _ => hc _) (wpE_writeBatch he hI hstrict
      (fun d w h hi co => hC d _ h hi) hbatch hfits hL hw hi
      (List.append_assoc .. ▸ List.prefix_rfl) (Nat.le_refl _) ?_ ?_)
    · intro d₁ w₁ L' hwrote hpend hi₁
      refine hok _ _ L' ⟨hwrote.holds, hwrote.writes, rfl, rfl, Nat.le_refl _,
        fun h => absurd hmode h⟩ ?_ hwrote.durableLen (fun _ => hpend) hi₁
      rw [hwrote.log, List.append_assoc]
    · intro hs err d₁ w₁ L' qs hqs hwrote hi₁
      exact herr hs err _ _ L' (waiting ++ [p]) qs ⟨hwrote.holds, hwrote.writes, rfl, hbatch,
        Nat.le_succ_of_le hbehind, fun h => absurd hmode h⟩ hqs hwrote.log hwrote.durableLen
        (Or.inr rfl) hi₁

end Append

/-! ### Reset -/

section Reset

variable {cfg : Config} {e : Faults} {strict H : Prop} {I : Disk → Prop}

/-- The name of a segment that is started is not durable yet. -/
theorem DurLog.start {dir : Dir} {d : Disk} {k : Nat} {all : List Bytes}
    (h : DurLog dir d k all) (id : Nat) : DurLog dir (Wal.start dir d id) k all := by
  refine h.congr fun n => ?_
  by_cases hn : n = .plain id
  · subst hn
    have hat : Wal.start dir d id ((SegName.plain id).path dir) =
        (d ((SegName.plain id).path dir)).link .empty := start_at dir d id
    rw [hat, Slot.durable_link]
  · rw [start_of_ne hn]

namespace Holds

variable {dir : Dir} {d : Disk} {L : Layout}

/-- The active segment is the one with the largest id. -/
theorem max_ids (h : Holds dir d L) : (L.blobs.map Prod.fst).foldl max 0 = L.active := by
  have hids : L.blobs.map Prod.fst = L.sealed.map Prod.fst ++ [L.active] := by
    simp only [Layout.blobs, List.map_append, List.map_map, Function.comp_def, List.map_cons,
      List.map_nil]
  rw [hids]
  refine foldl_max_concat _ _ fun id hid => ?_
  obtain ⟨s, hs, rfl⟩ := List.mem_map.mp hid
  exact h.lt_active hs

theorem le_active (h : Holds dir d L) {s : Nat × Blob} (hs : s ∈ L.blobs) : s.1 ≤ L.active := by
  rw [Layout.blobs, List.mem_append, List.mem_singleton, List.mem_map] at hs
  rcases hs with ⟨s', hs', rfl⟩ | rfl
  · exact Nat.le_of_lt (h.lt_active hs')
  · exact Nat.le_refl _

/-- Behind the active segment there is room for another one. -/
theorem kept_start (h : Holds dir d L) (hword : L.active + 1 < 2 ^ 64) :
    Kept dir ((start dir d (L.active + 1)).commit dir) (L.blobs ++ [(L.active + 1, .empty)]) := by
  have hfresh : d (segmentPath dir (L.active + 1)) = .absent := h.absent_of_gt (Nat.lt_succ_self _)
  have hslot : ∀ id, id ≠ L.active + 1 → (start dir d (L.active + 1)).commit dir (segmentPath dir id) =
      (d (segmentPath dir id)).commit := by
    intro id hid
    rw [commit_segment]
    exact congrArg Slot.commit (start_of_ne (SegName.plain_ne hid) d)
  refine ⟨?_, fun s hs => ?_, fun id hno => ?_, fun s hs => ?_, fun id => ?_⟩
  · rw [List.pairwise_append]
    refine ⟨h.kept.sorted, List.pairwise_singleton _ _, fun s hs t ht => ?_⟩
    rw [List.mem_singleton.mp ht]
    exact Nat.lt_succ_of_le (h.le_active hs)
  · rcases List.mem_append.mp hs with hs | hs
    · rw [hslot _ (Nat.ne_of_lt (Nat.lt_succ_of_le (h.le_active hs))), h.kept.kept s hs]
      rfl
    · rw [List.mem_singleton.mp hs, commit_segment, start_at, hfresh]
      rfl
  · rw [hslot _ (hno (L.active + 1, .empty) (List.mem_append_right _ List.mem_cons_self)).symm,
      h.kept.absent id fun s hs => hno s (List.mem_append_left _ hs)]
    rfl
  · rcases List.mem_append.mp hs with hs | hs
    · exact h.kept.word s hs
    · rw [List.mem_singleton.mp hs]
      exact hword
  · rw [commit_signed, start, Function.update_of_ne (signedPath_ne dir id _), h.kept.unsigned]
    rfl

/-- With the empty segment the log is what it was. -/
theorem durLog_start (h : Holds dir d L) (hword : L.active + 1 < 2 ^ 64) :
    DurLog dir ((start dir d (L.active + 1)).commit dir) L.durableLen L.log := by
  refine ⟨_, (h.kept_start hword).durSegs, ?_⟩
  have hsurv : Survives (L.blobs.map Prod.snd ++ [.empty]) L.durableLen (L.log ++ []) :=
    L.survives h.fits (fun b hb => List.mem_singleton.mp hb) []
  rwa [List.append_nil, ← List.map_singleton (f := Prod.snd) (a := (L.active + 1, Blob.empty)),
    ← List.map_append] at hsurv

/-- Where only an empty segment is left the log is empty. -/
theorem of_emptied {id : Nat} (hword : id < 2 ^ 64)
    (hlive : ∀ id', (d (segmentPath dir id')).live = if id' = id then some .empty else none)
    (hsigned : ∀ id', d (signedPath dir id') = .absent) :
    Holds dir (d.commit dir) ⟨[], id, [], []⟩ := by
  refine ⟨⟨List.pairwise_singleton _ _, fun s hs => ?_, fun id' hno => ?_, fun s hs => ?_,
    fun id' => ?_⟩, Fits.nil⟩
  · rw [List.mem_singleton.mp hs, commit_segment]
    exact Slot.commit_eq_kept (by rw [hlive, if_pos rfl]; rfl)
  · have hid : id' ≠ id := fun e => hno (id, _) List.mem_cons_self e.symm
    rw [commit_segment]
    exact Slot.commit_eq_absent (by rw [hlive, if_neg hid])
  · rw [List.mem_singleton.mp hs]
    exact hword
  · rw [commit_signed, hsigned, Slot.commit_absent]

end Holds

/-- **What `reset` does.**  Afterwards the log is empty; a power loss on the way
finds the old log or the new one. -/
theorem wpE_reset {C : Disk × State → Prop} {d : Disk} {st : State} {L : Layout}
    {waiting : List Bytes} {Q : Unit → Disk × State → Prop}
    {R : StorageError → Disk × State → Prop}
    (herr : (∃ o, e.fail o) → ∀ err σ, C σ → R err σ) (hI : Beside cfg.dir I) (hstrict : strict)
    (hC : ∀ d st, DurLog cfg.dir d L.durableLen L.log ∨ DurLog cfg.dir d 0 [] → I d → C (d, st))
    (hr : Ready cfg d st L waiting) (hi : I d)
    (hok : ∀ d' st' L', Ready cfg d' st' L' waiting → L'.log = [] → L'.pending = [] → I d' →
      Q () (d', st')) :
    wpE (Disk.sem e) strict H C (reset cfg) Q R (d, st) := by
  obtain ⟨hL, hw, hidle, hqueue, hbehind, hgroup⟩ := hr
  let ids := L.blobs.map Prod.fst
  let fresh := L.active + 1
  have hold : ∀ d st, DurLog cfg.dir d L.durableLen L.log → I d → C (d, st) :=
    fun d st h => hC d st (Or.inl h)
  have hdur : DurLog cfg.dir d L.durableLen L.log := hL.spares List.prefix_rfl (Nat.le_refl _)
  have hfresh : d (segmentPath cfg.dir fresh) = .absent := hL.absent_of_gt (Nat.lt_succ_self _)
  have hnotmem : fresh ∉ ids := by
    intro hm
    have := (hL.kept.segIds.mem fresh).mp hm
    rw [hfresh] at this
    cases this
  -- the fresh segment, before and after its name is durable
  let d₁ : Disk := start cfg.dir d fresh
  let d₂ := d₁.commit cfg.dir
  have hi₁ : I d₁ := hI.segment fresh _ hi
  have hi₂ : I d₂ := hI.commit _ hi₁
  have hdur₁ : DurLog cfg.dir d₁ L.durableLen L.log := hdur.start fresh
  refine wpE_zoom State.writerPart ?_
  refine wpE_bind.mpr (wpE_listSegments_ids (hold _ _ hdur hi) hL.kept.segIds ?_
    fun hf _ => herr ⟨_, hf⟩ _ _ (hold _ _ hdur hi))
  have hfst : (ids.map fun id => (id, segmentPath cfg.dir id)).map Prod.fst = ids := by
    rw [List.map_map]
    exact List.map_id ids
  rw [hfst, hL.max_ids]
  refine wpE_bind.mpr (wpE_wrappingSucc (hold _ _ hdur hi) fun hfits => ?_)
  have hword : fresh < 2 ^ 64 := hfits hstrict
  have hk₂ : Kept cfg.dir d₂ (L.blobs ++ [(fresh, .empty)]) := hL.kept_start hword
  have hdur₂ : DurLog cfg.dir d₂ L.durableLen L.log := hL.durLog_start hword
  have hids₂ : ∀ id, id ∈ ids ++ [fresh] ↔ (d₂ (segmentPath cfg.dir id)).live.isSome := by
    intro id
    have hm := hk₂.segIds.mem id
    rwa [List.map_append] at hm
  rw [Nat.mod_eq_of_lt hword]
  refine wpE_bind.mpr (wpE_bind.mpr (wpE_create (hold _ _ hdur hi) (by rw [hfresh]; rfl)
    ⟨hold _ _ hdur₁ hi₁, wpE_pure.mpr ⟨hold _ _ hdur₁ hi₁, ?_⟩⟩
    fun hf _ => herr ⟨_, hf⟩ _ _ (hold _ _ hdur hi)))
  refine wpE_bind.mpr (wpE_syncDir (hold _ _ hdur₁ hi₁) ⟨hold _ _ hdur₂ hi₂, ?_⟩
    fun hf _ => herr ⟨_, hf⟩ _ _ (hold _ _ hdur₁ hi₁))
  have hnodup : ids.Nodup := by
    refine List.Pairwise.imp ?_ hL.kept.segIds.sorted
    exact fun hlt e => absurd hlt (e ▸ Nat.lt_irrefl _)
  refine wpE_bind.mpr (wpE_deleteAll
    (C := fun τ : Disk × Writer => C (τ.1, State.writerPart.set τ.2 st))
    (fun hf err d' hc => herr hf err (d', _) hc) hI ?_ ids d₂ hnodup
    (fun id hid => (hids₂ id).mp (List.mem_append_left _ hid))
    (fun _ => rfl) hi₂ fun d₃ hd₃ hl₃ hs₃ hi₃ => ?_)
  · exact fun d' hd' hi' => hold _ _ (hdur₂.congr hd') hi'
  · -- the second `sync_dir` makes the deletions durable
    have hlive : ∀ id, (d₃ (segmentPath cfg.dir id)).live =
        if id = fresh then some .empty else none := by
      intro id
      rw [hl₃]
      by_cases hid : id = fresh
      · have hempty : d₂ (segmentPath cfg.dir fresh) = .kept .empty :=
          hk₂.kept (fresh, .empty) (List.mem_append_right _ List.mem_cons_self)
        rw [if_pos hid, hid, if_neg hnotmem, hempty]
        rfl
      · rw [if_neg hid]
        by_cases hm : id ∈ ids
        · rw [if_pos hm]
        · have hno : id ∉ ids ++ [fresh] := fun h => (List.mem_append.mp h).elim hm fun h =>
            hid (List.mem_singleton.mp h)
          have := (hids₂ id).not.mp hno
          rw [if_neg hm]
          simpa using this
    have hL₄ : Holds cfg.dir (d₃.commit cfg.dir) ⟨[], fresh, [], []⟩ :=
      .of_emptied hword hlive fun id => (hs₃ id).trans (hk₂.unsigned id)
    have hi₄ := hI.commit _ hi₃
    have hc₄ : ∀ st, C (d₃.commit cfg.dir, st) := fun st =>
      hC _ _ (Or.inr (hL₄.spares List.prefix_rfl (Nat.le_refl _))) hi₄
    refine wpE_bind.mpr (wpE_syncDir (hold _ _ (hdur₂.congr hd₃) hi₃) ⟨hc₄ _, ?_⟩
      fun hf _ => herr ⟨_, hf⟩ _ _ (hold _ _ (hdur₂.congr hd₃) hi₃))
    exact wpE_modify (hc₄ _) (hc₄ _) (hok _ _ _ ⟨hL₄, ⟨rfl, rfl⟩, hidle, hqueue, hbehind, hgroup⟩
      rfl rfl hi₄)

end Reset

/-! ### Open -/

section Open

variable {M : Type} {cfg : Config} {e : Faults} {strict H : Prop} {I : Disk → Prop}
variable {C : Disk × M → Prop} {m : M}

/-- The active segment of an orderly log is the last one listed. -/
theorem wpE_openActive {d : Disk} {L : Layout} {Q : Segment → Disk × M → Prop}
    {R : StorageError → Disk × M → Prop} (he : Tame cfg.dir e) (hc : C (d, m))
    (hL : Holds cfg.dir d L)
    (hok : ∀ off, Q ⟨L.active, segmentPath cfg.dir L.active, off⟩ (d, m)) :
    wpE (Disk.sem e) strict H C (openActive cfg) Q R (d, m) := by
  refine wpE_bind.mpr (wpE_listSegments_ids hc hL.kept.segIds ?_ fun hf => absurd hf (he.fail _))
  have hlast : ((L.blobs.map Prod.fst).map fun id => (id, segmentPath cfg.dir id)).getLast? =
      some (L.active, segmentPath cfg.dir L.active) := by
    simp only [Layout.blobs, List.map_append, List.map_cons, List.map_nil, List.getLast?_concat]
  rw [hlast]
  refine wpE_bind.mpr (wpE_len hc (fun b _ => wpE_pure.mpr ⟨hc, hok _⟩) (fun hn => ?_)
    fun hf => absurd hf (he.fail _))
  change (d (segmentPath cfg.dir L.active)).live = none at hn
  rw [hL.active_slot] at hn
  cases hn

/-- With no segment there, the first one is created. -/
theorem wpE_openActive_first {d : Disk} {Q : Segment → Disk × M → Prop}
    {R : StorageError → Disk × M → Prop} (he : Tame cfg.dir e) (hI : Beside cfg.dir I)
    (hC : ∀ d', DurLog cfg.dir d' 0 [] → I d' → C (d', m)) (hk : Kept cfg.dir d []) (hi : I d)
    (hok : ∀ d', Holds cfg.dir d' ⟨[], 1, [], []⟩ → I d' →
      Q ⟨1, segmentPath cfg.dir 1, 0⟩ (d', m)) :
    wpE (Disk.sem e) strict H C (openActive cfg) Q R (d, m) := by
  have habs : ∀ id, d (segmentPath cfg.dir id) = .absent :=
    fun id => hk.absent id fun s hs => absurd hs List.not_mem_nil
  have hnone : DurLog cfg.dir d 0 [] := ⟨[], hk.durSegs, .nil _⟩
  have hc : C (d, m) := hC d hnone hi
  let d₁ : Disk := Function.update d (segmentPath cfg.dir 1)
    ((d (segmentPath cfg.dir 1)).link .empty)
  have hi₁ : I d₁ := hI.segment 1 _ hi
  have hc₁ : C (d₁, m) := by
    refine hC d₁ (hnone.congr fun n => ?_) hi₁
    by_cases hn : n.path cfg.dir = segmentPath cfg.dir 1
    · rw [hn]
      show (Function.update d _ _ _).durable = _
      rw [Function.update_self, Slot.durable_link]
    · show (Function.update d _ _ _).durable = _
      rw [Function.update_of_ne hn]
  have hL : Holds cfg.dir (d₁.commit cfg.dir) ⟨[], 1, [], []⟩ := by
    refine ⟨⟨List.pairwise_singleton _ _, fun s hs => ?_, fun id hno => ?_, fun s hs => ?_,
      fun id => ?_⟩, Fits.nil⟩
    · obtain rfl := List.mem_singleton.mp hs
      rw [commit_segment]
      show (Function.update d _ _ _).commit = _
      rw [Function.update_self, habs]
      rfl
    · have hid : id ≠ 1 := fun e => hno (1, _) List.mem_cons_self e.symm
      rw [commit_segment]
      show (Function.update d _ _ _).commit = _
      rw [Function.update_of_ne fun e => hid (segmentPath_inj e), habs]
      rfl
    · obtain rfl := List.mem_singleton.mp hs
      exact (by decide : 1 < 2 ^ 64)
    · rw [commit_signed]
      show (Function.update d _ _ _).commit = _
      rw [Function.update_of_ne (signedPath_ne cfg.dir id 1), hk.unsigned]
      rfl
  have hi₂ := hI.commit _ hi₁
  refine wpE_bind.mpr (wpE_listSegments_ids hc hk.segIds ?_ fun hf => absurd hf (he.fail _))
  refine wpE_bind.mpr (wpE_bind.mpr (wpE_create hc (by rw [habs]; rfl) ⟨hc₁, wpE_pure.mpr
    ⟨hc₁, ?_⟩⟩ fun hf => absurd hf (he.fail _)))
  have hc₂ : C (d₁.commit cfg.dir, m) := hC _ (hL.spares List.prefix_rfl (Nat.le_refl _)) hi₂
  exact wpE_bind.mpr (wpE_syncDir hc₁ ⟨hc₂, wpE_pure.mpr ⟨hc₂, hok _ hL hi₂⟩⟩
    fun hf => absurd hf (he.fail _))

/-- The fresh state of an opened log is ready. -/
theorem Holds.ready {d : Disk} {L : Layout} (hL : Holds cfg.dir d L) (off : Nat) :
    Ready cfg d ⟨⟨⟨L.active, segmentPath cfg.dir L.active, off⟩⟩, .default⟩ L [] where
  holds := hL
  writes := ⟨rfl, rfl⟩
  idle := rfl
  queue := rfl
  behind := Nat.le_refl _
  group _ := rfl

/-- **Opening an orderly log** reads all of it and changes nothing. -/
theorem wpE_reopen {d : Disk} {L : Layout} {Q : State × Recovered → Disk × M → Prop}
    {R : StorageError → Disk × M → Prop} (he : Tame cfg.dir e) (hc : C (d, m))
    (hL : Holds cfg.dir d L)
    (hok : ∀ st rec, Ready cfg d st L [] → rec.records = L.log → rec.stopReason = .clean →
      Q (st, rec) (d, m)) :
    wpE (Disk.sem e) strict H C (Wal.open cfg) Q R (d, m) := by
  refine wpE_bind.mpr (wpE_recover_ids hc hL.kept.segIds ?_ fun o hf => absurd hf (he.fail o))
  have hf : Fits (L.segments.flatMap Prod.snd) := by
    rw [L.segments_flatMap]
    exact hL.fits
  obtain ⟨rec, hrec, hclean, hreplay⟩ := replay_frames hf [] .default
  rw [hL.kept.replay_eq, Layout.blobs_content]
  rw [List.append_nil] at hreplay
  rw [hreplay]
  have hrec' : rec.records = L.log := by
    rw [hrec, L.segments_flatMap]
    rfl
  have hstop : rec.stopReason = .clean := hclean rfl
  show wpE _ _ _ _ (if rec.stopReason ≠ .clean then _ else _) _ _ _
  rw [if_neg (not_not.mpr hstop)]
  exact wpE_bind.mpr (wpE_openActive he hc hL fun off =>
    wpE_pure.mpr ⟨hc, hok _ rec (hL.ready off) hrec' hstop⟩)

/-- Cutting the damage off leaves the log in order. -/
theorem Damaged.holds {dir : Dir} {d d' : Disk} {gs : List (Nat × Blob)}
    {pre post : List (Nat × List Bytes)} {t : Nat} {ps : List Bytes} {junk : Bytes} {L : Layout}
    (h : Damaged gs pre post t ps junk) (hk : Kept dir d gs) (hf : Fits L.log)
    (hL : L.blobs = (pre ++ (t, ps) :: post).map cleanBlob)
    (hd' : ∀ n : SegName, d' (n.path dir) =
      if n = .plain t then .kept ⟨frames ps, []⟩ else (d (n.path dir)).commit) :
    Holds dir d' L := by
  have hat : ∀ id, d' (segmentPath dir id) =
      if id = t then .kept ⟨frames ps, []⟩ else (d (segmentPath dir id)).commit := by
    intro id
    refine (hd' (.plain id)).trans ?_
    by_cases hid : id = t
    · rw [if_pos hid, if_pos (congrArg SegName.plain hid)]
    · rw [if_neg hid, if_neg fun he => hid (congrArg SegName.id he)]
      rfl
  have hfst : L.blobs.map Prod.fst = gs.map Prod.fst := by
    rw [hL, h.eq]
    simp only [List.map_append, List.map_cons, List.map_map, cleanBlob, Function.comp_def]
  have hsorted : (L.blobs.map Prod.fst).Pairwise (· < ·) := by
    rw [hfst]
    exact List.pairwise_map.mpr hk.sorted
  have hmem : (t, (⟨frames ps ++ junk, []⟩ : Blob)) ∈ gs := by
    rw [h.eq]
    exact List.mem_append_right _ List.mem_cons_self
  -- ids are distinct, so only the damaged segment has the id `t`
  have hother : ∀ s ∈ pre ++ post, (cleanBlob s).1 ≠ t ∧ cleanBlob s ∈ gs := by
    intro s hs
    have hpw := hk.sorted
    rw [h.eq, List.pairwise_append, List.pairwise_cons] at hpw
    obtain ⟨_, ⟨hpost, _⟩, hpre⟩ := hpw
    rcases List.mem_append.mp hs with hs | hs
    · have hlt := hpre _ (List.mem_map_of_mem hs) _ List.mem_cons_self
      refine ⟨Nat.ne_of_lt hlt, ?_⟩
      rw [h.eq]
      exact List.mem_append_left _ (List.mem_map_of_mem hs)
    · have hlt := hpost _ (List.mem_map_of_mem hs)
      refine ⟨(Nat.ne_of_lt hlt).symm, ?_⟩
      rw [h.eq]
      exact List.mem_append_right _ (List.mem_cons_of_mem _ (List.mem_map_of_mem hs))
  refine ⟨⟨List.pairwise_map.mp hsorted, fun s hs => ?_, fun id hno => ?_, fun s hs => ?_,
    fun id => ?_⟩, hf⟩
  · rw [hL, List.map_append, List.map_cons] at hs
    rw [hat]
    rcases List.mem_append.mp hs with hs | hs
    · obtain ⟨u, hu, rfl⟩ := List.mem_map.mp hs
      obtain ⟨hne, hg⟩ := hother u (List.mem_append_left _ hu)
      rw [if_neg hne, hk.kept _ hg]
      rfl
    · rcases List.mem_cons.mp hs with rfl | hs
      · exact if_pos rfl
      · obtain ⟨u, hu, rfl⟩ := List.mem_map.mp hs
        obtain ⟨hne, hg⟩ := hother u (List.mem_append_right _ hu)
        rw [if_neg hne, hk.kept _ hg]
        rfl
  · have hno' : ∀ s ∈ gs, s.1 ≠ id := by
      intro s hs e
      have : id ∈ L.blobs.map Prod.fst := by
        rw [hfst]
        exact e ▸ List.mem_map_of_mem hs
      obtain ⟨u, hu, rfl⟩ := List.mem_map.mp this
      exact hno u hu rfl
    have hne : id ≠ t := fun e => hno' _ hmem e.symm
    rw [hat, if_neg hne, hk.absent id hno']
    rfl
  · have hm : s.1 ∈ gs.map Prod.fst := hfst ▸ List.mem_map_of_mem hs
    obtain ⟨u, hu, he⟩ := List.mem_map.mp hm
    exact he ▸ hk.word u hu
  · refine (hd' ⟨id, true⟩).trans ?_
    rw [if_neg fun he => Bool.noConfusion (congrArg SegName.signed he)]
    exact (congrArg Slot.commit (hk.unsigned id)).trans Slot.commit_absent

/-- **Opening what a power loss left.**  The records found are a prefix of what was
logged, with everything that was synced; afterwards the log is in order and holds
just these.  An open that is cut short or fails finds the same log again. -/
theorem wpE_open {d : Disk} {gs : List (Nat × Blob)} {k : Nat} {all : List Bytes}
    {Q : State × Recovered → Disk × M → Prop} {R : StorageError → Disk × M → Prop}
    (he : Tame cfg.dir e) (hI : Beside cfg.dir I)
    (hC : ∀ d', DurLog cfg.dir d' k all → I d' → C (d', m))
    (hk : Kept cfg.dir d gs) (htail : ∀ s ∈ gs, s.2.tail = [])
    (hs : Survives (gs.map Prod.snd) k all) (hi : I d)
    (hok : ∀ d' st rec L, Ready cfg d' st L [] → L.pending = [] → rec.records = L.log →
      L.log <+: all → k ≤ L.log.length → I d' → Q (st, rec) (d', m))
    (herr : (∃ p data n, e.short p data n) → ∀ err d', Kept cfg.dir d' gs → I d' →
      R err (d', m)) :
    wpE (Disk.sem e) strict H C (Wal.open cfg) Q R (d, m) := by
  have hdur : DurLog cfg.dir d k all := ⟨gs, hk.durSegs, hs⟩
  have hc : C (d, m) := hC d hdur hi
  obtain ⟨pss, hf, hall, hlen, hcase⟩ := hs.settle htail
  have hfail : ∀ {P : Prop} (o : StorageOp), e.fail o → P := fun o hf => absurd hf (he.fail o)
  rcases hcase with rfl | ⟨pre, t, ps, post, junk, rfl, hdam⟩
  · by_cases hnil : pss = []
    · -- an empty directory
      subst hnil
      have hkz : k = 0 := Nat.le_zero.mp hlen
      subst hkz
      refine wpE_bind.mpr (wpE_recover_ids hc hk.segIds ?_ fun o hf => hfail o hf)
      show wpE _ _ _ _ (if StopReason.clean ≠ .clean then _ else _) _ _ _
      rw [if_neg (not_not.mpr rfl)]
      refine wpE_bind.mpr (wpE_openActive_first he hI (fun d' hd' hi' => ?_) hk hi
        fun d' hL hi' => ?_)
      · refine hC d' ?_ hi'
        have := hd'.extend all
        rwa [List.nil_append] at this
      · have hlog : DurLog cfg.dir d' 0 all := hL.spares List.nil_prefix (Nat.zero_le _)
        exact wpE_pure.mpr ⟨hC d' hlog hi', hok d' _ _ _ (hL.ready 0) rfl rfl List.nil_prefix
          (Nat.zero_le _) hi'⟩
    · -- nothing is damaged
      obtain ⟨L, _, hpend, hblobs, hlog⟩ := Layout.exists_of_segments hnil
      rw [← hblobs] at hk
      rw [← hlog] at hf hall hlen
      exact wpE_reopen he hc ⟨hk, hf⟩ fun st rec hready hrec _ =>
        hok d st rec L hready hpend hrec hall hlen hi
  · -- one segment ends in damage: it is rewritten
    have hnil : pre ++ (t, ps) :: post ≠ [] := by simp
    obtain ⟨L, _, hpend, hblobs, hlog⟩ := Layout.exists_of_segments hnil
    have hflat : (pre ++ (t, ps) :: post).flatMap Prod.snd = pre.flatMap Prod.snd ++ ps := by
      have hpost : post.flatMap Prod.snd = [] := List.flatMap_eq_nil_iff.mpr hdam.empty
      rw [List.flatMap_append, List.flatMap_cons, hpost, List.append_nil]
    have hfits := hf
    rw [hflat] at hfits
    obtain ⟨stop, hstop, hreplay⟩ := replay_damaged hdam hfits.left hfits.right .default
    have hmem : (t, (⟨frames ps ++ junk, []⟩ : Blob)) ∈ gs := by
      rw [hdam.eq]
      exact List.mem_append_right _ List.mem_cons_self
    have ht : d (segmentPath cfg.dir t) = .kept ⟨frames ps ++ junk, []⟩ := hk.kept _ hmem
    have hlt : (frames ps).length < (Blob.mk (frames ps ++ junk) []).content.length := by
      have := List.length_pos_iff.mpr hdam.dead.1
      rw [Blob.content_mk, List.append_nil, List.length_append]
      omega
    have hkeep : (Blob.mk (frames ps ++ junk) []).content.take (frames ps).length = frames ps := by
      rw [Blob.content_mk, List.append_nil, List.take_left]
    refine wpE_bind.mpr (wpE_recover_ids hc hk.segIds ?_ fun o hf => hfail o hf)
    rw [hk.replay_eq, hreplay]
    show wpE _ _ _ _ (if stop ≠ .clean then _ else _) _ _ _
    rw [if_pos hstop]
    refine wpE_bind.mpr (wpE_truncateTail he hI (fun d' hd' hi' => hC d' (hdur.congr hd') hi')
      (by rw [ht]; rfl) hlt hi (fun d' hd' hi' => ?_) (fun hshort err d' hd' hi' => ?_))
    · rw [hkeep] at hd'
      have hL : Holds cfg.dir d' L := hdam.holds hk (by rwa [hlog]) hblobs hd'
      rw [← hlog] at hall hlen
      have hc' : C (d', m) := by
        refine hC d' (hL.spares hall ?_) hi'
        rw [Layout.durableLen_of_pending hpend]
        exact hlen
      refine ⟨hc', wpE_bind.mpr (wpE_openActive he hc' hL fun off => wpE_pure.mpr ⟨hc', ?_⟩)⟩
      refine hok d' _ _ L (hL.ready off) hpend ?_ hall hlen hi'
      rw [hlog, hflat]
      rfl
    · exact herr hshort err d' (hk.congr hd') hi'

end Open

end AccretionDb.Wal
