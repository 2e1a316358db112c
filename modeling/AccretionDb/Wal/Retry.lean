import AccretionDb.Wal.Reopen

/-! # Opening the log when calls fail

`open` changes the segments in two ways only: it cuts the first damaged one off, and it
starts a segment where there is none.  Wherever a call fails, each of these is done or
not.  So if nothing lies behind the damage, the next `open` finds what this one would
have found.  In a log that the engine wrote nothing does, however a power loss tears it
(`Tears.orderly`).
-/

namespace AccretionDb.Wal

open CrashLogic

section Hashed

variable [Hashing]

/-- What an `open` that may have failed leaves of the segments. -/
inductive Tidied (bufs : List (SegName × Bytes)) : List (SegName × Bytes) → Prop
  | same : Tidied bufs bufs
  | cut : Tidied bufs (settled bufs)
  | first (h : bufs = []) : Tidied bufs [(.plain 1, [])]

/-- **Nothing is lost or found** by cutting the damage off, if nothing lies behind it. -/
theorem Tidied.records {bufs bufs' : List (SegName × Bytes)} (h : Tidied bufs bufs')
    (hbehind : ∀ s ∈ afterStop bufs, s.2 = []) :
    (Wal.replay (byId bufs') .default).records = (Wal.replay (byId bufs) .default).records ∧
      ∀ s ∈ afterStop bufs', s.2 = [] := by
  cases h with
  | same => exact ⟨rfl, hbehind⟩
  | cut =>
    obtain ⟨ps, hps, _, hclean⟩ := settled_spec bufs
    have h := hclean hbehind
    rw [h.records, hps, h.afterStop]
    exact ⟨rfl, nofun⟩
  | first h =>
    subst h
    have hfirst : Clean [(SegName.plain 1, [])] [] := .of_empty (by simp)
    rw [hfirst.records, hfirst.afterStop]
    exact ⟨rfl, nofun⟩

/-- All segments have names of the log. -/
def Plain (bufs : List (SegName × Bytes)) : Prop := ∀ s ∈ bufs, s.1.signed = false

theorem stopsAt_mem {α : Type} : ∀ {bufs : List (α × Bytes)} {t : α}, stopsAt bufs = some t →
    t ∈ bufs.map Prod.fst := by
  intro bufs
  induction bufs with
  | nil => exact fun h => nomatch h
  | cons s bufs ih =>
    intro t h
    rw [stopsAt] at h
    rw [List.map_cons]
    split at h
    · exact List.mem_cons_of_mem _ (ih h)
    · exact Option.some.inj h ▸ List.mem_cons_self

theorem Plain.adoptable {bufs : List (SegName × Bytes)} (h : Plain bufs) : Adoptable bufs := by
  have hall : ∀ n ∈ bufs.map Prod.fst, SegName.plain n.id ∈ bufs.map Prod.fst := by
    intro n hn
    obtain ⟨⟨⟨id, signed⟩, b⟩, hs, rfl⟩ := List.mem_map.mp hn
    obtain rfl : signed = false := h _ hs
    exact hn
  exact ⟨fun n hn => hall n (stopsAt_mem hn), fun n hn => hall n (List.mem_of_getLast? hn)⟩

theorem Tidied.plain {bufs bufs' : List (SegName × Bytes)} (h : Tidied bufs bufs')
    (hp : Plain bufs) : Plain bufs' := by
  cases h with
  | same => exact hp
  | cut =>
    intro s hs
    have hm : s.1 ∈ (settled bufs).map Prod.fst := List.mem_map_of_mem hs
    rw [settled_fst] at hm
    obtain ⟨t, ht, he⟩ := List.mem_map.mp hm
    rw [← he]
    exact hp t ht
  | first h =>
    intro s hs
    obtain rfl := List.mem_singleton.mp hs
    rfl

/-! ### What the engine and a power loss leave -/

theorem afterStop_suffix {α : Type} : ∀ bufs : List (α × Bytes), afterStop bufs <:+ bufs := by
  intro bufs
  induction bufs with
  | nil => exact List.suffix_refl _
  | cons s bufs ih =>
    rw [afterStop]
    split
    · exact ih.trans (List.suffix_cons ..)
    · exact List.suffix_cons ..

/-- **Only empty segments come behind a torn one.** -/
theorem Survives.behind {f : Nat → Bytes} : ∀ {gs : List (Nat × Blob)} {k : Nat}
    {all : List Bytes}, Survives (gs.map Prod.snd) k all → (∀ s ∈ gs, Torn s.2 (f s.1)) →
    ∀ s ∈ afterStop (gs.map fun s => (SegName.plain s.1, f s.1)), s.2 = [] := by
  intro gs
  induction gs with
  | nil => exact fun _ _ => nofun
  | cons s gs ih =>
    obtain ⟨id, g⟩ := s
    intro k all h htorn
    rw [List.map_cons] at h ⊢
    have hrest : ∀ s ∈ gs, Torn s.2 (f s.1) := fun s hs => htorn s (List.mem_cons_of_mem _ hs)
    cases h with
    | @clean ps bs k k' all fits rest hk =>
      have hid : f id = frames ps := (htorn _ List.mem_cons_self).of_tail_eq_nil rfl
      rw [hid, afterStop, (Scan.of_frames_clean fits).scanBuffer_eq]
      exact ih rest hrest
    | @last ps qs rest junk bs k fits hjunk hk empty =>
      have hempty : ∀ s ∈ gs.map fun s => (SegName.plain s.1, f s.1), s.2 = [] := by
        intro s hs
        obtain ⟨t, ht, rfl⟩ := List.mem_map.mp hs
        have hblob : t.2 = .empty := empty _ (List.mem_map_of_mem ht)
        have htorn' := hrest t ht
        rw [hblob] at htorn'
        exact htorn'.of_tail_eq_nil rfl
      intro s hs
      rw [afterStop] at hs
      split at hs
      · exact hempty s ((afterStop_suffix _).subset hs)
      · exact hempty s hs

/-- The segments that are there have what tears leave of these. -/
structure Tears (dir : Dir) (d : Disk) (gs : List (Nat × Blob)) : Prop where
  sorted : gs.Pairwise (·.1 < ·.1)
  word : ∀ s ∈ gs, s.1 < 2 ^ 64
  torn : ∀ s ∈ gs, ∃ b, (d (segmentPath dir s.1)).live = some b ∧ Torn s.2 b.content
  absent : ∀ id, (∀ s ∈ gs, s.1 ≠ id) → (d (segmentPath dir id)).live = none
  unsigned : ∀ id, (d (signedPath dir id)).live = none

omit [Hashing] in
/-- Nothing is torn as long as there is power. -/
theorem Kept.tears {dir : Dir} {d : Disk} {gs : List (Nat × Blob)} (h : Kept dir d gs) :
    Tears dir d gs where
  sorted := h.sorted
  word := h.word
  torn s hs := by
    have hwhole := Torn.cut s.2.tail.length (b := s.2) (Nat.le_refl _)
    rw [List.take_length] at hwhole
    exact ⟨s.2, by rw [h.kept s hs]; rfl, hwhole⟩
  absent id hno := by
    rw [h.absent id hno]
    rfl
  unsigned id := by
    rw [h.unsigned id]
    rfl

omit [Hashing] in
theorem DurSegs.tears {dir : Dir} {d d' : Disk} {gs : List (Nat × Blob)} (h : DurSegs dir d gs)
    (hc : d.Crash d') : Tears dir d' gs where
  sorted := h.sorted
  word := h.word
  torn s hs := by
    have hp := hc (segmentPath dir s.1)
    rw [(h.mem s.1 s.2).mp hs] at hp
    obtain ⟨b, ht, hb⟩ := hp
    refine ⟨⟨b, []⟩, by rw [hb]; rfl, ?_⟩
    rwa [Blob.content_mk, List.append_nil]
  absent id hno := by
    have hp := hc (segmentPath dir id)
    cases hd : (d (segmentPath dir id)).durable with
    | none =>
      rw [hd] at hp
      rw [hp]
      rfl
    | some g => exact absurd rfl (hno _ ((h.mem id g).mpr hd))
  unsigned id := by
    have hp := hc (signedPath dir id)
    rw [h.unsigned id] at hp
    rw [hp]
    rfl

omit [Hashing] in
theorem Tears.buffers {dir : Dir} {d : Disk} {gs : List (Nat × Blob)} (h : Tears dir d gs) :
    Buffers dir d (gs.map fun s => (.plain s.1, segBytes dir d (.plain s.1))) := by
  have hids : SegIds dir d (gs.map Prod.fst) := by
    refine ⟨List.pairwise_map.mpr h.sorted, fun id => ⟨fun hm => ?_, fun hl => ?_⟩, fun id hm => ?_,
      h.unsigned⟩
    · obtain ⟨s, hs, rfl⟩ := List.mem_map.mp hm
      obtain ⟨b, hb, -⟩ := h.torn s hs
      rw [hb]
      rfl
    · by_contra hno
      rw [h.absent id fun s hs he => hno (List.mem_map.mpr ⟨s, hs, he⟩)] at hl
      cases hl
    · obtain ⟨s, hs, rfl⟩ := List.mem_map.mp hm
      exact h.word s hs
  have hb := Buffers.of_segments hids.segments
  rw [List.map_map, List.map_map] at hb
  exact hb

/-- **Nothing lies behind the damage** in what a power loss leaves of a log. -/
theorem Tears.orderly {dir : Dir} {d : Disk} {gs : List (Nat × Blob)} {k : Nat} {all : List Bytes}
    {bufs : List (SegName × Bytes)} (h : Tears dir d gs) (hs : Survives (gs.map Prod.snd) k all)
    (hb : Buffers dir d bufs) : Plain bufs ∧ ∀ s ∈ afterStop bufs, s.2 = [] := by
  obtain rfl := hb.unique h.buffers
  refine ⟨fun s hm => ?_, hs.behind (f := fun id => segBytes dir d (.plain id)) fun s hm => ?_⟩
  · obtain ⟨t, -, rfl⟩ := List.mem_map.mp hm
    rfl
  · obtain ⟨b, hl, ht⟩ := h.torn s hm
    have hread : segBytes dir d (.plain s.1) = b.content := by
      rw [segBytes]
      exact congrArg (·.elim [] Blob.content) hl
    rwa [hread]

/-! ### Failing calls -/

variable {M : Type} {m : M} {cfg : Config} {e : Faults} {strict H : Prop} {d : Disk}
variable {bufs : List (SegName × Bytes)} {I : Disk → Prop}

/-- The segments are as an `open` may leave them. -/
def Left (dir : Dir) (I : Disk → Prop) (bufs : List (SegName × Bytes)) (d : Disk) : Prop :=
  (∃ bufs', Tidied bufs bufs' ∧ Buffers dir d bufs') ∧ I d

theorem wpE_openActive_left (hb : Buffers cfg.dir d (settled bufs)) (hI : Beside cfg.dir I) (hi : I d) :
    wpE (Disk.sem e) strict H (fun _ : Disk × M => True) (openActive cfg)
      (fun _ σ => Left cfg.dir I bufs σ.1) (fun _ σ => Left cfg.dir I bufs σ.1) (d, m) := by
  have hleft : Left cfg.dir I bufs d := ⟨⟨_, .cut, hb⟩, hi⟩
  refine wpE_bind.mpr (wpE_listSegments trivial hb.segments ?_ fun _ _ => hleft)
  cases hlast : (((settled bufs).map Prod.fst).map
      fun n => (n.id, n.path cfg.dir)).getLast? with
  | some x =>
    exact wpE_bind.mpr (wpE_len trivial (fun _ _ => wpE_pure.mpr ⟨trivial, hleft⟩)
      (fun _ => hleft) fun _ _ => hleft)
  | none =>
    have hnil : settled bufs = [] := by
      rw [List.getLast?_eq_none_iff] at hlast
      exact List.map_eq_nil_iff.mp (List.map_eq_nil_iff.mp hlast)
    rw [hnil] at hb
    have hnone : (d (segmentPath cfg.dir 1)).live = none :=
      hb.live_eq_none (n := .plain 1) (show 1 < 2 ^ 64 by decide) nofun
    have hstart : Buffers cfg.dir (start cfg.dir d 1) ([] ++ [(.plain 1, [])]) :=
      hb.start (fun s hs => absurd hs List.not_mem_nil) (by decide)
    have hfirst : ∀ d', Buffers cfg.dir d' [(.plain 1, [])] → I d' → Left cfg.dir I bufs d' :=
      fun d' h hi' => ⟨⟨_, .first (settled_eq_nil hnil), h⟩, hi'⟩
    have hi' : I (start cfg.dir d 1) := hI.segment 1 _ hi
    refine wpE_bind.mpr (wpE_bind.mpr (wpE_create trivial hnone ⟨trivial, wpE_pure.mpr ⟨trivial,
      ?_⟩⟩ fun _ _ => hleft))
    exact wpE_bind.mpr (wpE_syncDir trivial ⟨trivial, wpE_pure.mpr ⟨trivial,
      hfirst _ hstart.commit (hI.commit _ hi')⟩⟩ fun _ _ => hfirst _ hstart hi')

/-- **Opening with calls that fail** cuts the damage off and starts a segment, or not. -/
theorem wpE_open_left (hb : Buffers cfg.dir d bufs) (hplain : Plain bufs) (hI : Beside cfg.dir I)
    (hi : I d) :
    wpE (Disk.sem e) strict H (fun _ : Disk × M => True) (Wal.open cfg)
      (fun _ σ => Left cfg.dir I bufs σ.1) (fun _ σ => Left cfg.dir I bufs σ.1) (d, m) := by
  have hleft : Left cfg.dir I bufs d := ⟨⟨_, .same, hb⟩, hi⟩
  have hrest : ∀ d' (r : Recovered), Buffers cfg.dir d' (settled bufs) → I d' →
      wpE (Disk.sem e) strict H (fun _ : Disk × M => True)
        (openActive cfg >>= fun active => pure (⟨⟨active⟩, .default⟩, r))
        (fun (_ : State × Recovered) σ => Left cfg.dir I bufs σ.1)
        (fun _ σ => Left cfg.dir I bufs σ.1) (d', m) := by
    intro d' r hd' hi'
    exact wpE_bind.mpr (wpE_post (wpE_openActive_left hd' hI hi')
      (fun _ _ _ hq => wpE_pure.mpr ⟨trivial, hq⟩) fun _ _ _ hr => hr)
  refine wpE_bind.mpr (wpE_recover trivial hb.segments ?_ fun _ _ _ => hleft)
  rw [hb.map_segBytes]
  rcases clean_or_stops bufs with ⟨ps, h⟩ | ⟨pre, t, buf, post, ps, qs, stop, r, rfl, h, hs, hr⟩
  · obtain ⟨r', h1, h2, h3⟩ := h.replay [] .default
    obtain ⟨h4, _⟩ := settled_clean h []
    rw [List.append_nil] at h3 h4
    have hstop : (replay (byId bufs) .default).stopReason = .clean := h3 ▸ h2 rfl
    have hset : settled bufs = bufs := h4.trans (List.append_nil _)
    rw [if_neg (not_not.mpr hstop)]
    exact hrest d _ (hset.symm ▸ hb) hi
  · obtain ⟨r', h1, _, h3⟩ := h.replay ((t, buf) :: post) .default
    obtain ⟨h4, _⟩ := settled_clean h ((t, buf) :: post)
    obtain ⟨h6, _⟩ := settled_stop hs hr (t := t) post
    obtain ⟨_, _, hle, hclean⟩ := hs.stop_eq
    have hlt : stop < buf.length := Nat.lt_of_le_of_ne (hle (Nat.zero_le _)) fun e =>
      hr (hclean.mpr e)
    have hmem : (t, buf) ∈ pre ++ (t, buf) :: post := List.mem_append_right pre List.mem_cons_self
    obtain ⟨blob, hl, hcont⟩ := hb.live hmem
    rw [h6] at h4
    have hrec : replay (byId (pre ++ (t, buf) :: post)) .default =
        ⟨r'.records ++ qs, some t.id, stop, r⟩ := by
      rw [h3, byId, List.map_cons, replay_cons hs, if_pos hr]
    simp only [hrec]
    rw [if_pos hr]
    obtain ⟨t, _ | _⟩ := t
    swap
    · exact Bool.noConfusion (hplain _ hmem)
    refine wpE_bind.mpr (wpE_truncateTail_any hI (fun _ _ _ => trivial) hl (by rw [hcont]; exact hlt)
      hi (fun d' hd' hi' => ⟨trivial, ?_⟩) (fun _ _ d' hd' hi' => ?_) fun _ _ d' hd' hi' => ?_)
    · exact hrest d' _ (h4 ▸ hb.cut (by rwa [hcont] at hd')) hi'
    · exact ⟨⟨_, .same, hb.congr fun id => congrArg Slot.live (hd' id)⟩, hi'⟩
    -- the rewrite has the segment's name already, though that is not durable
    · refine ⟨⟨_, .cut, h4 ▸ hb.set (fun n hn => ?_) ?_⟩, hi'⟩
      · show (d' (n.path cfg.dir)).live = _
        rw [(hd' n).trans (if_neg hn)]
      · show (d' ((SegName.plain t).path cfg.dir)).live.map _ = _
        rw [(hd' (.plain t)).trans (if_pos rfl), Slot.live_link, hcont]
        show some ((Blob.mk (buf.take stop) []).content) = _
        rw [Blob.content_mk, List.append_nil]

end Hashed

end AccretionDb.Wal
