import AccretionDb.Wal.Log

/-! # What the log looks like on the disk

Two descriptions.  `Holds` is the log between two operations: all segments but
the active one are synced rows of frames, and the active one is a synced row with
an unsynced one behind it.  `DurLog dir d k all` is the log as a power loss sees
it, at any moment: whatever a tear does, what can be read back is a prefix of
`all` with at least `k` payloads.  A power loss turns the second into a log at
rest, and every log at rest is one that `Holds` describes, but for one segment
that ends in damage (`settle`).
-/

namespace AccretionDb.Wal

open CrashLogic

/-! ### Segments and their files -/

/-- The segments a power loss leaves, by ascending id. -/
structure DurSegs (dir : Dir) (d : Disk) (gs : List (Nat × Blob)) : Prop where
  sorted : gs.Pairwise (·.1 < ·.1)
  mem : ∀ id g, (id, g) ∈ gs ↔ (d (segmentPath dir id)).durable = some g
  word : ∀ s ∈ gs, s.1 < 2 ^ 64
  unsigned : ∀ id, (d (signedPath dir id)).durable = none

/-- Every segment's name is durable, and these are the segments. -/
structure Kept (dir : Dir) (d : Disk) (gs : List (Nat × Blob)) : Prop where
  sorted : gs.Pairwise (·.1 < ·.1)
  kept : ∀ s ∈ gs, d (segmentPath dir s.1) = .kept s.2
  absent : ∀ id, (∀ s ∈ gs, s.1 ≠ id) → d (segmentPath dir id) = .absent
  word : ∀ s ∈ gs, s.1 < 2 ^ 64
  unsigned : ∀ id, d (signedPath dir id) = .absent

namespace Kept

variable {dir : Dir} {d : Disk} {gs : List (Nat × Blob)}

/-- A segment is there exactly if it is listed. -/
theorem slot_eq (h : Kept dir d gs) (id : Nat) :
    (∃ g, (id, g) ∈ gs ∧ d (segmentPath dir id) = .kept g) ∨
      (∀ s ∈ gs, s.1 ≠ id) ∧ d (segmentPath dir id) = .absent := by
  by_cases hid : ∃ g, (id, g) ∈ gs
  · obtain ⟨g, hg⟩ := hid
    exact Or.inl ⟨g, hg, h.kept _ hg⟩
  · have hno : ∀ s ∈ gs, s.1 ≠ id := fun s hs e => hid ⟨s.2, e ▸ hs⟩
    exact Or.inr ⟨hno, h.absent id hno⟩

theorem durSegs (h : Kept dir d gs) : DurSegs dir d gs where
  sorted := h.sorted
  mem id g := by
    constructor
    · intro hg
      rw [h.kept _ hg]
      rfl
    · intro hd
      rcases h.slot_eq id with ⟨g', hg', hs⟩ | ⟨_, hs⟩
      · rw [hs] at hd
        cases hd
        exact hg'
      · rw [hs] at hd
        cases hd
  word := h.word
  unsigned id := by
    rw [h.unsigned]
    rfl

theorem segIds (h : Kept dir d gs) : SegIds dir d (gs.map Prod.fst) where
  sorted := List.pairwise_map.mpr h.sorted
  mem id := by
    rcases h.slot_eq id with ⟨g, hg, hs⟩ | ⟨hno, hs⟩
    · rw [hs]
      exact ⟨fun _ => rfl, fun _ => List.mem_map.mpr ⟨_, hg, rfl⟩⟩
    · rw [hs]
      refine ⟨fun hm => ?_, nofun⟩
      obtain ⟨s, hmem, rfl⟩ := List.mem_map.mp hm
      exact absurd rfl (hno s hmem)
  word id hm := by
    obtain ⟨s, hs, rfl⟩ := List.mem_map.mp hm
    exact h.word s hs
  unsigned id := by
    rw [h.unsigned]
    rfl

theorem segBytes_eq (h : Kept dir d gs) {s : Nat × Blob} (hs : s ∈ gs) :
    segBytes dir d (.plain s.1) = s.2.content := by
  have hk : d ((SegName.plain s.1).path dir) = .kept s.2 := h.kept s hs
  rw [segBytes, hk]
  rfl

theorem replay_eq (h : Kept dir d gs) :
    (gs.map Prod.fst).map (fun id => (id, segBytes dir d (.plain id))) =
      gs.map fun s => (s.1, s.2.content) := by
  rw [List.map_map]
  exact List.map_congr_left fun s hs => congrArg _ (h.segBytes_eq hs)

/-- The same segments, on another disk. -/
theorem congr (h : Kept dir d gs) {d' : Disk}
    (hd : ∀ n : SegName, d' (n.path dir) = d (n.path dir)) : Kept dir d' gs where
  sorted := h.sorted
  kept s hs := (hd (.plain s.1)).trans (h.kept s hs)
  absent id hno := (hd (.plain id)).trans (h.absent id hno)
  word := h.word
  unsigned id := (hd ⟨id, true⟩).trans (h.unsigned id)

theorem commit_slot (h : Kept dir d gs) (id : Nat) :
    (d (segmentPath dir id)).commit = d (segmentPath dir id) := by
  rcases h.slot_eq id with ⟨g, _, hs⟩ | ⟨_, hs⟩
  · rw [hs, Slot.commit_kept]
  · rw [hs, Slot.commit_absent]

theorem commit (h : Kept dir d gs) : Kept dir (d.commit dir) gs := by
  refine h.congr (SegName.forall_iff.mpr ⟨fun id => ?_, fun id => ?_⟩)
  · exact (commit_segment d dir id).trans (h.commit_slot id)
  · show d.commit dir (signedPath dir id) = d (signedPath dir id)
    rw [commit_signed, h.unsigned, Slot.commit_absent]

theorem ne_last {a : Nat} {g : Blob} (h : Kept dir d (gs ++ [(a, g)])) {s : Nat × Blob}
    (hs : s ∈ gs) : s.1 < a :=
  (List.pairwise_append.mp h.sorted).2.2 s hs (a, g) List.mem_cons_self

/-- Replace the bytes of the last segment. -/
theorem set_last {a : Nat} {g : Blob} (h : Kept dir d (gs ++ [(a, g)])) (g' : Blob) :
    Kept dir (Function.update d (segmentPath dir a) (.kept g')) (gs ++ [(a, g')]) where
  sorted := List.pairwise_append.mpr ⟨(List.pairwise_append.mp h.sorted).1,
    List.pairwise_singleton _ _, fun s hs t ht => by
      obtain rfl := List.mem_singleton.mp ht
      exact h.ne_last hs⟩
  kept s hs := by
    rcases List.mem_append.mp hs with hm | hm
    · have hne : segmentPath dir s.1 ≠ segmentPath dir a := fun e =>
        Nat.ne_of_lt (h.ne_last hm) (segmentPath_inj e)
      rw [Function.update_of_ne hne]
      exact h.kept s (List.mem_append_left _ hm)
    · obtain rfl := List.mem_singleton.mp hm
      exact Function.update_self ..
  absent id hno := by
    have hid : a ≠ id := hno (a, g') (List.mem_append_right _ List.mem_cons_self)
    rw [Function.update_of_ne fun e => hid (segmentPath_inj e).symm]
    refine h.absent id fun s hs => ?_
    rcases List.mem_append.mp hs with hm | hm
    · exact hno s (List.mem_append_left _ hm)
    · obtain rfl := List.mem_singleton.mp hm
      exact hid
  word s hs := by
    rcases List.mem_append.mp hs with hm | hm
    · exact h.word s (List.mem_append_left _ hm)
    · obtain rfl := List.mem_singleton.mp hm
      exact h.word (a, g) (List.mem_append_right _ List.mem_cons_self)
  unsigned id := by
    rw [Function.update_of_ne (signedPath_ne dir id a)]
    exact h.unsigned id

/-- Behind the last segment there is none. -/
theorem absent_next {a : Nat} {g : Blob} (h : Kept dir d (gs ++ [(a, g)])) :
    d (segmentPath dir (a + 1)) = .absent := by
  refine h.absent _ fun s hs => ?_
  rcases List.mem_append.mp hs with hm | hm
  · have := h.ne_last hm
    omega
  · obtain rfl := List.mem_singleton.mp hm
    exact Nat.ne_of_lt (Nat.lt_succ_self a)

/-- Start the next segment. -/
theorem start_next {a : Nat} {g : Blob} (h : Kept dir d (gs ++ [(a, g)])) (ha : a + 1 < 2 ^ 64) :
    Kept dir (Disk.commit (Function.update d (segmentPath dir (a + 1))
      ((d (segmentPath dir (a + 1))).link .empty)) dir) (gs ++ [(a, g)] ++ [(a + 1, .empty)]) := by
  have hslot : ∀ id, Disk.commit (Function.update d (segmentPath dir (a + 1))
      ((d (segmentPath dir (a + 1))).link .empty)) dir (segmentPath dir id) =
      if id = a + 1 then .kept .empty else d (segmentPath dir id) := by
    intro id
    by_cases hid : id = a + 1
    · rw [commit_segment, hid, Function.update_self, h.absent_next, if_pos rfl]
      rfl
    · rw [commit_segment, if_neg hid, Function.update_of_ne fun e => hid (segmentPath_inj e)]
      exact h.commit_slot id
  have hlt : ∀ s ∈ gs ++ [(a, g)], s.1 < a + 1 := by
    intro s hs
    rcases List.mem_append.mp hs with hm | hm
    · exact Nat.lt_succ_of_lt (h.ne_last hm)
    · obtain rfl := List.mem_singleton.mp hm
      exact Nat.lt_succ_self _
  refine ⟨?_, fun s hs => ?_, fun id hno => ?_, fun s hs => ?_, fun id => ?_⟩
  · refine List.pairwise_append.mpr ⟨h.sorted, List.pairwise_singleton _ _, fun s hs t ht => ?_⟩
    obtain rfl := List.mem_singleton.mp ht
    exact hlt s hs
  · rw [hslot]
    rcases List.mem_append.mp hs with hm | hm
    · rw [if_neg (Nat.ne_of_lt (hlt s hm))]
      exact h.kept s hm
    · obtain rfl := List.mem_singleton.mp hm
      rw [if_pos rfl]
  · have hid : a + 1 ≠ id := hno (a + 1, .empty) (List.mem_append_right _ List.mem_cons_self)
    rw [hslot, if_neg hid.symm]
    exact h.absent id fun s hs => hno s (List.mem_append_left _ hs)
  · rcases List.mem_append.mp hs with hm | hm
    · exact h.word s hm
    · obtain rfl := List.mem_singleton.mp hm
      exact ha
  · rw [commit_signed, Function.update_of_ne (signedPath_ne dir id (a + 1)), h.unsigned,
      Slot.commit_absent]

end Kept

/-! ### Layouts -/

/-- The sealed segments with their payloads, and the active one with the payloads
that are synced and those that are not. -/
structure Layout where
  sealed : List (Nat × List Bytes)
  active : Nat
  synced : List Bytes
  pending : List Bytes

namespace Layout

def segments (L : Layout) : List (Nat × List Bytes) :=
  L.sealed ++ [(L.active, L.synced ++ L.pending)]

/-- Everything that was logged, oldest first. -/
def log (L : Layout) : List Bytes := L.sealed.flatMap Prod.snd ++ L.synced ++ L.pending

/-- How many payloads are synced. -/
def durableLen (L : Layout) : Nat := (L.sealed.flatMap Prod.snd ++ L.synced).length

def push (p : Bytes) (L : Layout) : Layout := { L with pending := L.pending ++ [p] }

def pushAll (ps : List Bytes) (L : Layout) : Layout := { L with pending := L.pending ++ ps }

def sync (L : Layout) : Layout := { L with synced := L.synced ++ L.pending, pending := [] }

/-- Seal the active segment and start the next one. -/
def rotate (L : Layout) : Layout :=
  ⟨L.sealed ++ [(L.active, L.synced ++ L.pending)], L.active + 1, [], []⟩

@[simp] theorem log_push (p : Bytes) (L : Layout) : (L.push p).log = L.log ++ [p] := by
  simp only [log, push, List.append_assoc]

@[simp] theorem log_pushAll (ps : List Bytes) (L : Layout) : (L.pushAll ps).log = L.log ++ ps := by
  simp only [log, pushAll, List.append_assoc]

theorem pushAll_push (p : Bytes) (ps : List Bytes) (L : Layout) :
    (L.push p).pushAll ps = L.pushAll (p :: ps) := by
  simp only [push, pushAll, List.append_assoc, List.singleton_append]

theorem pushAll_nil (L : Layout) : L.pushAll [] = L := by
  simp only [pushAll, List.append_nil]

@[simp] theorem log_sync (L : Layout) : L.sync.log = L.log := by
  simp only [log, sync, List.append_nil, List.append_assoc]

@[simp] theorem log_rotate (L : Layout) : L.rotate.log = L.log := by
  simp only [log, rotate, List.flatMap_append, List.flatMap_cons, List.flatMap_nil,
    List.append_nil, List.append_assoc]

@[simp] theorem durableLen_push (p : Bytes) (L : Layout) : (L.push p).durableLen = L.durableLen :=
  rfl

@[simp] theorem durableLen_sync (L : Layout) : L.sync.durableLen = L.log.length := by
  simp only [durableLen, sync, log, List.append_assoc]

@[simp] theorem durableLen_rotate (L : Layout) : L.rotate.durableLen = L.log.length := by
  simp only [durableLen, rotate, log, List.flatMap_append, List.flatMap_cons, List.flatMap_nil,
    List.append_nil, List.append_assoc]

@[simp] theorem durableLen_pushAll (ps : List Bytes) (L : Layout) :
    (L.pushAll ps).durableLen = L.durableLen := rfl

theorem durableLen_of_pending {L : Layout} (h : L.pending = []) : L.durableLen = L.log.length := by
  rw [durableLen, log, h, List.append_nil]

theorem durableLen_le (L : Layout) : L.durableLen ≤ L.log.length := by
  simp only [durableLen, log, List.length_append]
  omega

theorem segments_flatMap (L : Layout) : L.segments.flatMap Prod.snd = L.log := by
  simp only [segments, log, List.flatMap_append, List.flatMap_cons, List.flatMap_nil,
    List.append_nil, List.append_assoc]

end Layout

variable [Hashing]

/-! ### What survives a power loss -/

/-- Whatever a tear leaves of these segments, they read back as a prefix of `all`
of at least `k` payloads: synced rows of frames, and then one segment with an
unsynced row or with damage at its end, with nothing in the segments behind it. -/
inductive Survives : List Blob → Nat → List Bytes → Prop
  | nil (all : List Bytes) : Survives [] 0 all
  | clean {ps : List Bytes} {bs : List Blob} {k k' : Nat} {all : List Bytes} (fits : Fits ps)
      (rest : Survives bs k' all) (hk : k ≤ ps.length + k') :
      Survives (⟨frames ps, []⟩ :: bs) k (ps ++ all)
  | last {ps qs rest : List Bytes} {junk : Bytes} {bs : List Blob} {k : Nat} (fits : Fits (ps ++ qs))
      (hjunk : junk = [] ∨ Dead ps junk ∧ qs = []) (hk : k ≤ ps.length)
      (empty : ∀ b ∈ bs, b = Blob.empty) :
      Survives (⟨frames ps ++ junk, frames qs⟩ :: bs) k (ps ++ qs ++ rest)

namespace Survives

theorem mono {bs : List Blob} {k k' : Nat} {all : List Bytes} (h : Survives bs k all) (hk : k' ≤ k) :
    Survives bs k' all := by
  cases h with
  | nil =>
    have hz : k' = 0 := by omega
    rw [hz]
    exact .nil all
  | clean fits rest hk' => exact .clean fits rest (by omega)
  | last fits hjunk hk' empty => exact .last fits hjunk (by omega) empty

theorem extend {bs : List Blob} {k : Nat} {all : List Bytes} (h : Survives bs k all)
    (more : List Bytes) : Survives bs k (all ++ more) := by
  induction h with
  | nil all => exact .nil _
  | @clean ps bs k k' all fits rest hk ih =>
    rw [List.append_assoc]
    exact .clean fits ih hk
  | @last ps qs rest junk bs k fits hjunk hk empty =>
    rw [List.append_assoc]
    exact .last fits hjunk hk empty

/-- Where all survive nothing is unsynced. -/
theorem tail_eq_nil {bs : List Blob} {k : Nat} {all : List Bytes} (h : Survives bs k all)
    (hk : all.length ≤ k) : ∀ b ∈ bs, b.tail = [] := by
  induction h with
  | nil all => exact fun b hb => absurd hb List.not_mem_nil
  | @clean ps bs k k' all fits rest hk' ih =>
    rw [List.length_append] at hk
    intro b hb
    rcases List.mem_cons.mp hb with rfl | hb
    · rfl
    · exact ih (by omega) b hb
  | @last ps qs rest junk bs k fits hjunk hk' empty =>
    rw [List.length_append, List.length_append] at hk
    have hqs : qs = [] := List.length_eq_zero_iff.mp (by omega)
    intro b hb
    rcases List.mem_cons.mp hb with rfl | hb
    · rw [hqs]
      rfl
    · rw [empty b hb]
      rfl

/-- **Survival is closed under power loss.** -/
theorem crash {f : Nat → Blob} :
    ∀ {gs : List (Nat × Blob)} {k : Nat} {all : List Bytes}, Survives (gs.map Prod.snd) k all →
      (∀ s ∈ gs, ∃ b, f s.1 = ⟨b, []⟩ ∧ Torn s.2 b ∧ RejectsDamage s.2.content b) →
      Survives (gs.map fun s => f s.1) k all := by
  intro gs
  induction gs with
  | nil => exact fun h _ => h
  | cons s gs ih =>
    obtain ⟨id, g⟩ := s
    intro k all h hf
    obtain ⟨b, hb, htorn, hrej⟩ := hf (id, g) List.mem_cons_self
    have hrest : ∀ s ∈ gs, ∃ b, f s.1 = ⟨b, []⟩ ∧ Torn s.2 b ∧ RejectsDamage s.2.content b :=
      fun s hs => hf s (List.mem_cons_of_mem _ hs)
    simp only [List.map_cons] at h ⊢
    rw [hb]
    cases h with
    | clean fits rest hk =>
      obtain rfl := htorn.of_tail_eq_nil rfl
      exact .clean fits (ih rest hrest) hk
    | @last ps qs rest junk bs k fits hjunk hk empty =>
      have hempty : ∀ b ∈ gs.map fun s => f s.1, b = Blob.empty := by
        intro c hc
        obtain ⟨s, hs, rfl⟩ := List.mem_map.mp hc
        obtain ⟨b', hb', ht', _⟩ := hrest s hs
        have hs0 : s.2 = Blob.empty := empty s.2 (List.mem_map_of_mem hs)
        have ht0 : s.2.tail = [] := by
          rw [hs0]
          rfl
        have hk0 := ht'.of_tail_eq_nil ht0
        rw [hb', hk0, hs0]
        rfl
      rcases hjunk with rfl | ⟨hdead, rfl⟩
      · -- a row of frames with an unsynced row: the tear leaves part of it
        rw [List.append_nil] at htorn hrej
        obtain ⟨q₁, junk, ⟨q₂, rfl⟩, rfl, hj⟩ :=
          hrej.split (Torn.synced_prefix htorn) (Torn.length_le htorn)
        have hfits : Fits ((ps ++ q₁) ++ []) := by
          rw [List.append_nil]
          rw [← List.append_assoc] at fits
          exact fits.left
        have hgoal : Survives (⟨frames (ps ++ q₁) ++ junk, frames []⟩ :: gs.map fun s => f s.1) k
            (ps ++ q₁ ++ [] ++ (q₂ ++ rest)) :=
          .last hfits (hj.imp (fun h => h) fun h => ⟨h, rfl⟩) (by rw [List.length_append]; omega)
            hempty
        simpa only [List.append_nil, List.append_assoc, frames_nil] using hgoal
      · obtain rfl := htorn.of_tail_eq_nil rfl
        exact .last fits (Or.inr ⟨hdead, rfl⟩) hk hempty

end Survives

/-- What was synced is not torn. -/
theorem RejectsDamage.of_synced {d d' : Disk} (hc : d.Crash d') {p : Path} {g b : Blob}
    (hg : (d p).durable = some g) (hb : d' p = .kept b) (htail : g.tail = []) :
    RejectsDamage g.content b.content := by
  have hp := hc p
  rw [hg] at hp
  obtain ⟨k, ht, hk⟩ := hp
  rw [hb] at hk
  obtain rfl := Slot.kept.inj hk
  obtain rfl := ht.of_tail_eq_nil htail
  rw [Blob.content, Blob.content, htail]
  exact .refl _

/-- **What a power loss spares**: a prefix of `all` of at least `k` payloads. -/
def DurLog (dir : Dir) (d : Disk) (k : Nat) (all : List Bytes) : Prop :=
  ∃ gs, DurSegs dir d gs ∧ Survives (gs.map Prod.snd) k all

theorem DurLog.congr {dir : Dir} {d d' : Disk} {k : Nat} {all : List Bytes} (h : DurLog dir d k all)
    (hd : ∀ n : SegName, (d' (n.path dir)).durable = (d (n.path dir)).durable) :
    DurLog dir d' k all := by
  obtain ⟨gs, hgs, hs⟩ := h
  refine ⟨gs, ⟨hgs.sorted, fun id g => ?_, hgs.word, fun id => ?_⟩, hs⟩
  · rw [show (d' (segmentPath dir id)).durable = _ from hd (.plain id)]
    exact hgs.mem id g
  · exact (hd ⟨id, true⟩).trans (hgs.unsigned id)

theorem DurLog.extend {dir : Dir} {d : Disk} {k : Nat} {all : List Bytes} (h : DurLog dir d k all)
    (more : List Bytes) : DurLog dir d k (all ++ more) := by
  obtain ⟨gs, hgs, hs⟩ := h
  exact ⟨gs, hgs, hs.extend more⟩

theorem DurLog.mono {dir : Dir} {d : Disk} {k k' : Nat} {all : List Bytes} (h : DurLog dir d k all)
    (hk : k' ≤ k) : DurLog dir d k' all := by
  obtain ⟨gs, hgs, hs⟩ := h
  exact ⟨gs, hgs, hs.mono hk⟩

/-- **After a power loss** every segment's name is durable and its bytes are
synced. -/
theorem DurLog.crash {dir : Dir} {d d' : Disk} {k : Nat} {all : List Bytes}
    (h : DurLog dir d k all) (hc : d.Crash d')
    (hr : ∀ id g b, (d (segmentPath dir id)).durable = some g →
      d' (segmentPath dir id) = .kept b → RejectsDamage g.content b.content) :
    ∃ gs, Kept dir d' gs ∧ (∀ s ∈ gs, s.2.tail = []) ∧ Survives (gs.map Prod.snd) k all := by
  obtain ⟨gs, hgs, hs⟩ := h
  let f : Nat → Blob := fun id => (d' (segmentPath dir id)).live.getD Blob.empty
  have hf : ∀ s ∈ gs, ∃ b, d' (segmentPath dir s.1) = .kept ⟨b, []⟩ ∧ f s.1 = ⟨b, []⟩ ∧
      Torn s.2 b ∧ RejectsDamage s.2.content b := by
    rintro ⟨id, g⟩ hm
    have hd := (hgs.mem id g).mp hm
    have hp := hc (segmentPath dir id)
    rw [hd] at hp
    obtain ⟨b, ht, hb⟩ := hp
    refine ⟨b, hb, ?_, ht, ?_⟩
    · simp only [f, hb]
      rfl
    · have hrej := hr id g ⟨b, []⟩ hd hb
      rw [Blob.content_mk b, List.append_nil] at hrej
      exact hrej
  refine ⟨gs.map fun s => (s.1, f s.1), ⟨?_, ?_, ?_, ?_, ?_⟩, ?_, ?_⟩
  · exact List.pairwise_map.mpr hgs.sorted
  · intro s hm
    obtain ⟨t, ht, rfl⟩ := List.mem_map.mp hm
    obtain ⟨b, hb, hfb, _⟩ := hf t ht
    simp only [hfb]
    exact hb
  · intro id hno
    have hp := hc (segmentPath dir id)
    cases hd : (d (segmentPath dir id)).durable with
    | none =>
      rw [hd] at hp
      exact hp
    | some g =>
      have hm := (hgs.mem id g).mpr hd
      exact absurd rfl (hno (id, f id) (List.mem_map.mpr ⟨_, hm, rfl⟩))
  · intro s hm
    obtain ⟨t, ht, rfl⟩ := List.mem_map.mp hm
    exact hgs.word t ht
  · intro id
    have hp := hc (signedPath dir id)
    rw [hgs.unsigned] at hp
    exact hp
  · intro s hm
    obtain ⟨t, ht, rfl⟩ := List.mem_map.mp hm
    obtain ⟨b, _, hfb, _⟩ := hf t ht
    simp only [hfb]
  · rw [List.map_map]
    exact hs.crash fun s hm => by
      obtain ⟨b, _, h2, h3, h4⟩ := hf s hm
      exact ⟨b, h2, h3, h4⟩

/-! ### The log between two operations -/

def Layout.blobs (L : Layout) : List (Nat × Blob) :=
  L.sealed.map (fun s => (s.1, ⟨frames s.2, []⟩)) ++
    [(L.active, ⟨frames L.synced, frames L.pending⟩)]

/-- Sealed segments survive in front of what does. -/
theorem Survives.sealed {bs : List Blob} {k : Nat} {all : List Bytes} (h : Survives bs k all) :
    ∀ {ss : List (Nat × List Bytes)}, Fits (ss.flatMap Prod.snd) →
      Survives (ss.map (fun s => (⟨frames s.2, []⟩ : Blob)) ++ bs)
        ((ss.flatMap Prod.snd).length + k) (ss.flatMap Prod.snd ++ all) := by
  intro ss
  induction ss with
  | nil =>
    intro _
    rwa [List.flatMap_nil, List.map_nil, List.length_nil, Nat.zero_add]
  | cons s ss ih =>
    intro hf
    rw [List.flatMap_cons] at hf ⊢
    rw [List.map_cons, List.cons_append, List.append_assoc]
    refine .clean hf.left (ih hf.right) ?_
    rw [List.length_append, Nat.add_assoc]

/-- The bytes of the segments, with something behind the synced part of the last one. -/
def Layout.tailed (L : Layout) (junk : Bytes) : List Blob :=
  L.sealed.map (fun s => (⟨frames s.2, []⟩ : Blob)) ++ [⟨frames L.synced ++ junk, frames L.pending⟩]

/-- The segments of a layout survive, also with damage at their end and empty segments behind
them. -/
theorem Layout.survives_tailed (L : Layout) (hf : Fits L.log) {es : List Blob} {junk : Bytes}
    (hjunk : junk = [] ∨ Dead L.synced junk ∧ L.pending = []) (hes : ∀ b ∈ es, b = Blob.empty)
    (more : List Bytes) : Survives (L.tailed junk ++ es) L.durableLen (L.log ++ more) := by
  rw [Layout.log, List.append_assoc] at hf
  have hlast : Survives (⟨frames L.synced ++ junk, frames L.pending⟩ :: es) L.synced.length
      (L.synced ++ L.pending ++ more) := .last hf.right hjunk (Nat.le_refl _) hes
  have h := hlast.sealed hf.left
  rw [← List.length_append, ← List.append_assoc, ← List.append_assoc, ← Layout.log,
    ← Layout.durableLen] at h
  rwa [Layout.tailed, List.append_assoc]

theorem Layout.map_snd_blobs (L : Layout) : L.blobs.map Prod.snd = L.tailed [] := by
  rw [Layout.blobs, Layout.tailed, List.map_append, List.map_map, List.append_nil]
  rfl

/-- The segments of a layout survive, also with empty segments behind them. -/
theorem Layout.survives (L : Layout) (hf : Fits L.log) {es : List Blob}
    (hes : ∀ b ∈ es, b = Blob.empty) (more : List Bytes) :
    Survives (L.blobs.map Prod.snd ++ es) L.durableLen (L.log ++ more) := by
  rw [L.map_snd_blobs]
  exact L.survives_tailed hf (Or.inl rfl) hes more

/-- The disk holds the log as the layout says. -/
structure Holds (dir : Dir) (d : Disk) (L : Layout) : Prop where
  kept : Kept dir d L.blobs
  fits : Fits L.log

namespace Holds

variable {dir : Dir} {d : Disk} {L : Layout}

theorem lt_active (h : Holds dir d L) {s : Nat × List Bytes} (hs : s ∈ L.sealed) :
    s.1 < L.active := by
  have := h.kept.sorted
  rw [Layout.blobs, List.pairwise_append] at this
  exact this.2.2 _ (List.mem_map.mpr ⟨s, hs, rfl⟩) _ List.mem_cons_self

theorem active_slot (h : Holds dir d L) :
    d (segmentPath dir L.active) = .kept ⟨frames L.synced, frames L.pending⟩ :=
  h.kept.kept (L.active, _) (List.mem_append_right _ List.mem_cons_self)

/-- No segment comes after the active one. -/
theorem absent_of_gt (h : Holds dir d L) {id : Nat} (hid : L.active < id) :
    d (segmentPath dir id) = .absent := by
  refine h.kept.absent id fun s hs => ?_
  rcases List.mem_append.mp hs with hs | hs
  · obtain ⟨t, ht, rfl⟩ := List.mem_map.mp hs
    have := h.lt_active ht
    simp only
    omega
  · obtain rfl := List.mem_singleton.mp hs
    simp only
    omega

/-- A disk with the same segments holds the same log. -/
theorem congr (h : Holds dir d L) {d' : Disk}
    (hd : ∀ n : SegName, d' (n.path dir) = d (n.path dir)) : Holds dir d' L where
  kept := h.kept.congr hd
  fits := h.fits

theorem commit (h : Holds dir d L) : Holds dir (d.commit dir) L := ⟨h.kept.commit, h.fits⟩

/-- Replace the slot of the active segment. -/
theorem set_active (h : Holds dir d L) (synced pending : List Bytes)
    (hf : Fits (L.sealed.flatMap Prod.snd ++ synced ++ pending)) :
    Holds dir (Function.update d (segmentPath dir L.active)
      (.kept ⟨frames synced, frames pending⟩)) ⟨L.sealed, L.active, synced, pending⟩ := by
  have hset := h.kept.set_last ⟨frames synced, frames pending⟩
  exact ⟨hset, hf⟩

theorem push (h : Holds dir d L) {p : Bytes} (hp : p.length < 2 ^ 32) :
    Holds dir (Function.update d (segmentPath dir L.active)
      ((d (segmentPath dir L.active)).edit (·.append (encode p)))) (L.push p) := by
  have hf : Fits (L.push p).log := by
    rw [Layout.log_push]
    exact h.fits.append fun q hq => List.mem_singleton.mp hq ▸ hp
  have := h.set_active L.synced (L.pending ++ [p]) hf
  rw [frames_concat] at this
  rw [h.active_slot]
  exact this

theorem sync (h : Holds dir d L) :
    Holds dir (Function.update d (segmentPath dir L.active)
      ((d (segmentPath dir L.active)).edit Blob.sync)) L.sync := by
  have hf : Fits L.sync.log := by
    rw [Layout.log_sync]
    exact h.fits
  have := h.set_active (L.synced ++ L.pending) [] hf
  rw [frames_append] at this
  rw [h.active_slot]
  exact this

theorem durLog (h : Holds dir d L) (more : List Bytes) :
    DurLog dir d L.durableLen (L.log ++ more) := by
  have : Survives (L.blobs.map Prod.snd ++ []) L.durableLen (L.log ++ more) :=
    L.survives h.fits (fun _ h => absurd h List.not_mem_nil) more
  rw [List.append_nil] at this
  exact ⟨L.blobs, h.kept.durSegs, this⟩

/-- What a power loss spares between two operations. -/
theorem spares (h : Holds dir d L) {k : Nat} {all : List Bytes} (hlog : L.log <+: all)
    (hk : k ≤ L.durableLen) : DurLog dir d k all := by
  obtain ⟨more, rfl⟩ := hlog
  exact (h.durLog more).mono hk

/-- Start the next segment behind a synced one. -/
theorem rotate (h : Holds dir d L) (hp : L.pending = []) (hword : L.active + 1 < 2 ^ 64) :
    Holds dir (Disk.commit (Function.update d (segmentPath dir (L.active + 1))
      ((d (segmentPath dir (L.active + 1))).link .empty)) dir) L.rotate := by
  have hblobs : L.rotate.blobs = L.blobs ++ [(L.active + 1, .empty)] := by
    simp only [Layout.blobs, Layout.rotate, List.map_append, List.map_cons, List.map_nil, hp,
      List.append_nil, frames_nil, Blob.empty]
  refine ⟨?_, by rw [Layout.log_rotate]; exact h.fits⟩
  rw [hblobs]
  exact h.kept.start_next hword

end Holds

/-! ### The log at rest

After a power loss no tail is unsynced.  Reading such a log finds what survived;
at most one segment ends in damage, and the segments behind it are empty. -/

def cleanBlob (s : Nat × List Bytes) : Nat × Blob := (s.1, ⟨frames s.2, []⟩)

/-- The segments hold these payloads, except that the one at `t` ends in damage. -/
structure Damaged (gs : List (Nat × Blob)) (pre post : List (Nat × List Bytes)) (t : Nat)
    (ps : List Bytes) (junk : Bytes) : Prop where
  eq : gs = pre.map cleanBlob ++ (t, ⟨frames ps ++ junk, []⟩) :: post.map cleanBlob
  dead : Dead ps junk
  empty : ∀ s ∈ post, s.2 = []

theorem Survives.settle :
    ∀ {gs : List (Nat × Blob)} {k : Nat} {all : List Bytes}, Survives (gs.map Prod.snd) k all →
      (∀ s ∈ gs, s.2.tail = []) →
      ∃ pss : List (Nat × List Bytes), Fits (pss.flatMap Prod.snd) ∧
        pss.flatMap Prod.snd <+: all ∧ k ≤ (pss.flatMap Prod.snd).length ∧
        (gs = pss.map cleanBlob ∨ ∃ pre t ps post junk, pss = pre ++ (t, ps) :: post ∧
          Damaged gs pre post t ps junk) := by
  intro gs
  induction gs with
  | nil =>
    intro k all h _
    cases h
    exact ⟨[], nofun, List.nil_prefix, Nat.le_refl _, Or.inl rfl⟩
  | cons s gs ih =>
    obtain ⟨id, g⟩ := s
    intro k all h htail
    simp only [List.map_cons] at h
    cases h with
    | @clean ps bs k k' all fits rest hk =>
      obtain ⟨pss, h1, ⟨more, h2⟩, h3, h4⟩ := ih rest fun s hs => htail s (List.mem_cons_of_mem _ hs)
      refine ⟨(id, ps) :: pss, fits.append h1, ⟨more, ?_⟩, ?_, ?_⟩
      · rw [List.flatMap_cons, List.append_assoc, h2]
      · rw [List.flatMap_cons, List.length_append]
        exact hk.trans (Nat.add_le_add_left h3 _)
      · rcases h4 with rfl | ⟨pre, t, qs, post, junk, rfl, hd⟩
        · exact Or.inl rfl
        · refine Or.inr ⟨(id, ps) :: pre, t, qs, post, junk, rfl, ?_, hd.dead, hd.empty⟩
          rw [hd.eq]
          rfl
    | @last ps qs rest junk bs k fits hjunk hk empty =>
      have hqs : qs = [] := frames_eq_nil.mp (htail _ List.mem_cons_self)
      subst hqs
      let post : List (Nat × List Bytes) := gs.map fun s => (s.1, [])
      have hpost : post.map cleanBlob = gs := by
        rw [List.map_map]
        refine (List.map_congr_left fun s hs => ?_).trans (List.map_id gs)
        have : s.2 = Blob.empty := empty _ (List.mem_map_of_mem hs)
        exact Prod.ext rfl this.symm
      have hflat : post.flatMap Prod.snd = [] := by
        rw [List.flatMap_eq_nil_iff]
        intro s hs
        obtain ⟨t, _, rfl⟩ := List.mem_map.mp hs
        rfl
      have hall : ((id, ps) :: post).flatMap Prod.snd = ps := by
        rw [List.flatMap_cons, hflat, List.append_nil]
      rw [List.append_nil] at fits
      refine ⟨(id, ps) :: post, ?_, ?_, ?_, ?_⟩
      · rwa [hall]
      · rw [hall, List.append_nil]
        exact List.prefix_append _ _
      · rwa [hall]
      · rcases hjunk with rfl | ⟨hdead, _⟩
        · refine Or.inl ?_
          rw [List.map_cons, hpost, List.append_nil]
          rfl
        · refine Or.inr ⟨[], id, ps, post, junk, rfl, ?_, hdead, ?_⟩
          · rw [hpost]
            rfl
          · intro s hs
            obtain ⟨t, _, rfl⟩ := List.mem_map.mp hs
            rfl

/-- Clean segments read back whole, and leave the scan to what is behind them. -/
theorem replay_frames : ∀ {pss : List (Nat × List Bytes)}, Fits (pss.flatMap Prod.snd) →
    ∀ (rest : List (Nat × Bytes)) (r : Recovered), ∃ r', r'.records = r.records ++ pss.flatMap Prod.snd ∧
      (r.stopReason = .clean → r'.stopReason = .clean) ∧
      replay (pss.map (fun s => (s.1, frames s.2)) ++ rest) r = replay rest r' := by
  intro pss
  induction pss with
  | nil => exact fun _ rest r => ⟨r, by simp, fun h => h, rfl⟩
  | cons s pss ih =>
    intro hf rest r
    obtain ⟨hs, hf⟩ := Fits.flatMap_cons hf
    obtain ⟨r', h1, h2, h3⟩ := ih hf rest
      ⟨r.records ++ s.2, some s.1, (frames s.2).length, .clean⟩
    refine ⟨r', ?_, fun _ => h2 rfl, ?_⟩
    · rw [h1, List.flatMap_cons, List.append_assoc]
    · rw [List.map_cons, List.cons_append, replay_cons (Scan.of_frames_clean hs),
        if_neg (by simp), h3]

/-- A damaged segment ends the replay. -/
theorem replay_damaged {pre post : List (Nat × List Bytes)} {t : Nat} {ps : List Bytes}
    {junk : Bytes} {gs : List (Nat × Blob)} (h : Damaged gs pre post t ps junk)
    (hf : Fits (pre.flatMap Prod.snd)) (hps : Fits ps) (r : Recovered) :
    ∃ stop, stop ≠ .clean ∧ replay (gs.map fun s => (s.1, s.2.content)) r =
      ⟨r.records ++ pre.flatMap Prod.snd ++ ps, some t, (frames ps).length, stop⟩ := by
  obtain ⟨stop, hstop, hscan⟩ := Scan.of_frames_dead hps h.dead
  have hmap : gs.map (fun s => (s.1, s.2.content)) = pre.map (fun s => (s.1, frames s.2)) ++
      (t, frames ps ++ junk) :: post.map fun s => (s.1, frames s.2) := by
    rw [h.eq, List.map_append, List.map_cons, List.map_map, List.map_map]
    simp only [Function.comp_def, cleanBlob, Blob.content_mk, List.append_nil]
  obtain ⟨r', h1, _, h3⟩ := replay_frames hf
    ((t, frames ps ++ junk) :: post.map fun s => (s.1, frames s.2)) r
  refine ⟨stop, hstop, ?_⟩
  rw [hmap, h3, replay_cons hscan, if_pos hstop, h1]

/-- Empty segments add nothing. -/
theorem replay_empty : ∀ {gs : List (Nat × Blob)}, (∀ s ∈ gs, s.2 = Blob.empty) → ∀ r : Recovered,
    (replay (gs.map fun s => (s.1, s.2.content)) r).records = r.records := by
  intro gs
  induction gs with
  | nil => exact fun _ _ => rfl
  | cons s gs ih =>
    intro h r
    have hs : s.2.content = frames [] := by
      rw [h s List.mem_cons_self]
      rfl
    rw [List.map_cons, hs, replay_cons (Scan.of_frames_clean fun _ hp => absurd hp List.not_mem_nil),
      if_neg (fun hne => hne rfl), ih fun t ht => h t (List.mem_cons_of_mem s ht), List.append_nil]

/-- **What is read of a log at rest** is all that survives from now on. -/
theorem Survives.replay : ∀ {gs : List (Nat × Blob)} {k : Nat} {all : List Bytes},
    Survives (gs.map Prod.snd) k all → (∀ s ∈ gs, s.2.tail = []) → ∀ r : Recovered, ∃ found,
      (Wal.replay (gs.map fun s => (s.1, s.2.content)) r).records = r.records ++ found ∧
        found <+: all ∧ k ≤ found.length ∧ Survives (gs.map Prod.snd) found.length found := by
  intro gs
  induction gs with
  | nil =>
    intro k all h _ r
    cases h
    exact ⟨[], (List.append_nil _).symm, List.nil_prefix, Nat.le_refl _, .nil []⟩
  | cons s gs ih =>
    obtain ⟨id, g⟩ := s
    intro k all h htail r
    simp only [List.map_cons] at h ⊢
    cases h with
    | @clean ps bs k k' all fits rest hk =>
      obtain ⟨found, hr, ⟨more, hmore⟩, hlen, hs⟩ := ih rest
        (fun s hs => htail s (List.mem_cons_of_mem _ hs))
        ⟨r.records ++ ps, some id, (frames ps).length, .clean⟩
      refine ⟨ps ++ found, ?_, ⟨more, ?_⟩, ?_, .clean fits hs ?_⟩
      · rw [Blob.content_mk, List.append_nil, replay_cons (Scan.of_frames_clean fits),
          if_neg (fun hne => hne rfl), hr, List.append_assoc]
      · rw [List.append_assoc, hmore]
      · rw [List.length_append]
        exact hk.trans (Nat.add_le_add_left hlen _)
      · rw [List.length_append]
    | @last ps qs rest junk bs k fits hjunk hk empty =>
      obtain rfl : qs = [] := frames_eq_nil.mp (htail _ List.mem_cons_self)
      rw [List.append_nil] at fits ⊢
      refine ⟨ps, ?_, List.prefix_append .., hk, ?_⟩
      · rcases hjunk with rfl | ⟨hdead, _⟩
        · rw [Blob.content_mk, frames_nil, List.append_nil, List.append_nil,
            replay_cons (Scan.of_frames_clean fits), if_neg (fun hne => hne rfl),
            replay_empty fun s hs => empty _ (List.mem_map_of_mem hs)]
        · obtain ⟨stop, hstop, hscan⟩ := Scan.of_frames_dead fits hdead
          rw [Blob.content_mk, frames_nil, List.append_nil, replay_cons hscan, if_pos hstop]
      · have hlast : Survives (⟨frames ps ++ junk, frames []⟩ :: gs.map Prod.snd) ps.length
            (ps ++ [] ++ []) :=
          .last (by rwa [List.append_nil]) hjunk (Nat.le_refl _) empty
        rwa [List.append_nil, List.append_nil] at hlast

theorem Layout.blobs_content (L : Layout) :
    L.blobs.map (fun s => (s.1, s.2.content)) = L.segments.map fun s => (s.1, frames s.2) := by
  rw [Layout.blobs, Layout.segments, List.map_append, List.map_append, List.map_map]
  simp only [Function.comp_def, Blob.content_mk, List.append_nil, List.map_cons, List.map_nil,
    frames_append]

/-- Segments that are clean and synced are those of a layout. -/
theorem Layout.exists_of_segments {pss : List (Nat × List Bytes)} (h : pss ≠ []) :
    ∃ L : Layout, L.segments = pss ∧ L.pending = [] ∧ L.blobs = pss.map cleanBlob ∧
      L.log = pss.flatMap Prod.snd := by
  obtain ⟨sealed, last, rfl⟩ := (List.eq_nil_or_concat pss).resolve_left h
  rw [List.concat_eq_append]
  refine ⟨⟨sealed, last.1, last.2, []⟩, ?_, rfl, ?_, ?_⟩
  · simp only [Layout.segments, List.append_nil]
  · simp only [Layout.blobs, List.map_append, List.map_cons, List.map_nil, frames_nil]
    rfl
  · simp only [Layout.log, List.flatMap_append, List.flatMap_cons, List.flatMap_nil,
      List.append_nil]

end AccretionDb.Wal
