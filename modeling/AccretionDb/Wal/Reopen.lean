import AccretionDb.Wal.Live
import AccretionDb.Wal.Crash

/-! # Opening the log again

What `open` makes of a directory of segments with any bytes in them, and when the
records it found, and those appended since, are what the next `open` finds.
`open` cuts the first damaged segment off but leaves the segments behind it, so
this holds only if there is nothing in them.  A name with a sign in front of the id is
read like the log's own name for it, but what is cut off and written to is the file with
the log's own name (`Adoptable`).  And behind the segment with the largest id comes
segment 0 (`RollsOver`), which is listed in front: what is appended there is found first.
-/

namespace AccretionDb.Wal

open CrashLogic

/-- The segments of a directory with their bytes, in the order of a listing. -/
def segments (s : SimFs) (dir : Dir) : List (SegName × Bytes) :=
  (namesOf (s.paths.filter fun p => (s.files p).liveInode.isSome && p.dir == dir)).map fun n =>
    (n, (s.files (n.path dir)).liveInode.elim [] fun i => (s.inodes i).live)

theorem buffers_segments {s : SimFs} (hs : s.Tidy) (dir : Dir) :
    Buffers dir s.disk (segments s dir) := by
  have hns := Segments.of_lists (SimFs.lists_refines hs dir)
  have heq : segments s dir = (namesOf (s.paths.filter fun p =>
      (s.files p).liveInode.isSome && p.dir == dir)).map fun n => (n, segBytes dir s.disk n) := by
    refine List.map_congr_left fun n _ => ?_
    rw [segBytes, SimFs.disk, SimFs.live_slot]
    cases (s.files (n.path dir)).liveInode with
    | none => rfl
    | some i =>
      show _ = (n, (s.inodes i).blob.content)
      rw [SimFs.content_blob (hs.durable_prefix i)]
      rfl
  rw [heq]
  exact Buffers.of_segments hns

/-- The log is open: these are its segments, and the writer is at the last one. -/
structure Tip (dir : Dir) (d : Disk) (st : State) (pre : List (SegName × Bytes)) (a : Nat)
    (c : Bytes) : Prop where
  buffers : Buffers dir d (pre ++ [(.plain a, c)])
  writes : Writes dir a st.writer
  idle : st.coord.leaderActive = false
  queue : st.coord.queue = []
  behind : st.coord.syncedThrough ≤ st.coord.nextSeq

variable {cfg : Config} {H : Prop}

/-! ### Opening -/

/-- A file that is too short to be cut is left as it is. -/
theorem wpE_truncateTail_short {M : Type} {e : Faults} {strict : Prop} {C : Disk × M → Prop} {m : M}
    {d : Disk} {t validLen : Nat} {b : Blob} {Q : Unit → Disk × M → Prop}
    {R : StorageError → Disk × M → Prop} (hC : C (d, m))
    (hl : (d (segmentPath cfg.dir t)).live = some b) (hle : b.content.length ≤ validLen)
    (hok : Q () (d, m)) (herr : e.fail (.len (segmentPath cfg.dir t)) →
      ∀ msg, R (.io (segmentPath cfg.dir t) msg) (d, m)) :
    wpE (Disk.sem e) strict H C (truncateTail cfg.dir t validLen) Q R (d, m) := by
  refine wpE_bind.mpr (wpE_len hC (fun b' hb' => ?_) (fun hn => ?_) herr)
  · rw [hl] at hb'
    obtain rfl := Option.some.inj hb'
    rw [if_pos hle]
    exact wpE_pure.mpr ⟨hC, hok⟩
  · rw [hl] at hn
    cases hn

/-- A file that is not there cannot be cut. -/
theorem wpE_truncateTail_missing {M : Type} {e : Faults} {strict : Prop} {C : Disk × M → Prop}
    {m : M} {d : Disk} {t validLen : Nat} {Q : Unit → Disk × M → Prop}
    {R : StorageError → Disk × M → Prop} (hC : C (d, m))
    (hl : (d (segmentPath cfg.dir t)).live = none) (herr : ∀ err, R err (d, m)) :
    wpE (Disk.sem e) strict H C (truncateTail cfg.dir t validLen) Q R (d, m) := by
  refine wpE_bind.mpr (wpE_len hC (fun b' hb' => ?_) (fun _ => herr _) fun _ _ => herr _)
  rw [hl] at hb'
  cases hb'

/-- The last segment with the log's own name is the one to go on with. -/
theorem wpE_openActive_tip {M : Type} {m : M} {d : Disk} {bufs : List (SegName × Bytes)}
    {I : Disk → Prop} (hb : Buffers cfg.dir d bufs) (hI : Beside cfg.dir I) (hi : I d) :
    wpE (Disk.sem Faults.none) False H (fun _ : Disk × M => True) (openActive cfg)
      (fun seg σ => (∃ pre a c, Tip cfg.dir σ.1 ⟨⟨seg⟩, .default⟩ pre a c ∧
          (bufs = pre ++ [(.plain a, c)] ∨ bufs = [] ∧ pre ++ [(.plain a, c)] = [(.plain 1, [])])) ∧
        (Linked cfg.dir d → Linked cfg.dir σ.1) ∧ I σ.1)
      (fun _ _ => ∃ n, (bufs.map Prod.fst).getLast? = some n ∧ .plain n.id ∉ bufs.map Prod.fst)
      (d, m) := by
  refine wpE_bind.mpr (wpE_listSegments trivial hb.segments ?_ fun hf => hf.elim)
  rcases List.eq_nil_or_concat bufs with rfl | ⟨pre, ⟨n, c⟩, rfl⟩
  · have hnone : (d (segmentPath cfg.dir 1)).live = none :=
      hb.live_eq_none (n := .plain 1) (show 1 < 2 ^ 64 by decide) nofun
    refine wpE_bind.mpr (wpE_bind.mpr (wpE_create trivial hnone ⟨trivial, wpE_pure.mpr ⟨trivial,
      ?_⟩⟩ fun hf => hf.elim))
    have hfirst : Buffers cfg.dir ((start cfg.dir d 1).commit cfg.dir) [(.plain 1, [])] :=
      (hb.start (fun s hs => absurd hs List.not_mem_nil) (by decide)).commit
    refine wpE_bind.mpr (wpE_syncDir trivial ⟨trivial, wpE_pure.mpr ⟨trivial, ⟨[], 1, [],
      ⟨hfirst, ⟨rfl, rfl⟩, rfl, rfl, Nat.le_refl _⟩, Or.inr ⟨rfl, rfl⟩⟩, fun _ => Linked.commit _ _,
      hI.commit _ (hI.segment 1 _ hi)⟩⟩ fun hf => hf.elim)
  · rw [List.concat_eq_append] at hb ⊢
    have hnames : ((pre ++ [(n, c)]).map Prod.fst).getLast? = some n := by
      rw [List.map_append]
      exact List.getLast?_concat ..
    have hget : (((pre ++ [(n, c)]).map Prod.fst).map
        fun n => (n.id, n.path cfg.dir)).getLast? = some (n.id, n.path cfg.dir) := by
      rw [List.getLast?_map, hnames]
      rfl
    rw [hget]
    have hfits := hb.fits (List.mem_append_right pre List.mem_cons_self)
    obtain ⟨a, _ | _⟩ := n
    · have htip : ∀ off, Tip cfg.dir d ⟨⟨a, segmentPath cfg.dir a, off⟩, .default⟩ pre a c :=
        fun off => ⟨hb, ⟨rfl, rfl⟩, rfl, rfl, Nat.le_refl _⟩
      refine wpE_bind.mpr (wpE_len trivial (fun b _ => wpE_pure.mpr ⟨trivial,
        ⟨pre, a, c, htip _, Or.inl rfl⟩, fun h => h, hi⟩) (fun hn => ?_) fun hf => hf.elim)
      have := (htip 0).buffers.last_live
      rw [hn] at this
      cases this
    -- a name with a sign is opened under the other one, which would come behind it
    · have hno : SegName.plain a ∉ (pre ++ [((⟨a, true⟩ : SegName), c)]).map Prod.fst := by
        intro hm
        obtain ⟨s, hs, he⟩ := List.mem_map.mp hm
        have hlt := hb.le_last s hs
        rw [he] at hlt
        rw [SegName.key_plain, SegName.key_signed] at hlt
        omega
      have hnone : (d (segmentPath cfg.dir a)).live = none := by
        exact hb.live_eq_none hfits.plain fun s hs he => hno (he ▸ List.mem_map_of_mem hs)
      refine wpE_bind.mpr (wpE_len trivial (fun b hl => ?_) (fun _ => ⟨⟨a, true⟩, hnames, hno⟩)
        fun hf => hf.elim)
      have hl : (d (segmentPath cfg.dir a)).live = some b := hl
      rw [hnone] at hl
      cases hl

/-- A frame committed alone is a batch of one. -/
theorem wpE_commitSyncNow {e : Faults} {strict : Prop} {C : Disk × State → Prop} {d : Disk}
    {st : State} {frame : Bytes} {Q : Unit → Disk × State → Prop}
    {R : StorageError → Disk × State → Prop}
    (h : wpE (Disk.sem e) strict H (fun τ => C (τ.1, ⟨τ.2, st.coord⟩)) (writeBatch cfg [(0, frame)])
      (fun _ τ => Q () (τ.1, ⟨τ.2, st.coord⟩)) (fun err τ => R err (τ.1, ⟨τ.2, st.coord⟩))
      (d, st.writer)) :
    wpE (Disk.sem e) strict H C (commitSyncNow cfg frame) Q R (d, st) := by
  refine wpE_zoom State.writerPart (wpE_bind.mpr ?_)
  exact wpE_post (wpE_bind.mp (wpE_bind.mp h)) (fun _ τ _ hq => (wpE_pure.mp hq).2)
    fun _ _ _ hr => hr

section Hashed

variable [Hashing]

/-- The files that `open` asks for under the log's own name are there: the segment at which
the replay ends, and the last one. -/
structure Adoptable (bufs : List (SegName × Bytes)) : Prop where
  stop : ∀ n, stopsAt bufs = some n → .plain n.id ∈ bufs.map Prod.fst
  last : ∀ n, (bufs.map Prod.fst).getLast? = some n → .plain n.id ∈ bufs.map Prod.fst

instance (bufs : List (SegName × Bytes)) : Decidable (Adoptable bufs) :=
  decidable_of_iff ((∀ n ∈ stopsAt bufs, SegName.plain n.id ∈ bufs.map Prod.fst) ∧
    ∀ n ∈ (bufs.map Prod.fst).getLast?, SegName.plain n.id ∈ bufs.map Prod.fst)
    ⟨fun h => ⟨h.1, h.2⟩, fun h => ⟨h.1, h.2⟩⟩

/-- What `open` leaves of the segments.  A damaged one whose name has a sign is not cut
off. -/
inductive Leaves (bufs : List (SegName × Bytes)) : List (SegName × Bytes) → Prop
  | settled (h : ∀ n, stopsAt bufs = some n → n.signed = false) : Leaves bufs (settled bufs)
  | first (h : bufs = []) : Leaves bufs [(.plain 1, [])]
  | stuck {bufs' : List (SegName × Bytes)} {n : SegName} {c : Bytes}
      (h : stopsAt bufs = some n) (hn : n.signed = true) (hc : Broken c) (hm : (n, c) ∈ bufs') :
      Leaves bufs bufs'

/-- Whatever the last segment holds, if it has the log's own name it is adopted. -/
theorem Clean.adoptable {pre : List (SegName × Bytes)} {ps : List Bytes} (h : Clean pre ps)
    (a : Nat) (c : Bytes) : Adoptable (pre ++ [(.plain a, c)]) := by
  have hmem : SegName.plain a ∈ (pre ++ [(SegName.plain a, c)]).map Prod.fst :=
    List.mem_map_of_mem (f := Prod.fst) (List.mem_append_right pre List.mem_cons_self)
  refine ⟨fun n hn => ?_, fun n hn => ?_⟩
  · rw [h.stopsAt, Wal.stopsAt] at hn
    split at hn
    · cases hn
    · obtain rfl := Option.some.inj hn
      exact hmem
  · rw [List.map_append, List.map_singleton, List.getLast?_concat] at hn
    obtain rfl := Option.some.inj hn
    exact hmem

theorem Adoptable.nil : Adoptable [] := ⟨nofun, nofun⟩

theorem Leaves.of_nil {bufs : List (SegName × Bytes)} (h : Leaves [] bufs) (hne : bufs ≠ []) :
    bufs = [] ++ [(.plain 1, [])] := by
  cases h with
  | settled _ => exact absurd rfl hne
  | first _ => rfl
  | stuck hstop => cases hstop

/-- What `open` makes of a directory: it adopts the last segment, behind what it leaves. -/
def Adopts (dir : Dir) (I : Disk → Prop) (bufs : List (SegName × Bytes)) (d : Disk) (st : State)
    (d' : Disk) : Prop :=
  Adoptable bufs ∧
    (∃ pre a c, Tip dir d' st pre a c ∧ Leaves bufs (pre ++ [(.plain a, c)])) ∧
    (Linked dir d → Linked dir d') ∧ I d'

omit [Hashing] in
/-- Cutting a segment off leaves its name in the directory. -/
theorem linked_of_cut {dir : Dir} {d d' : Disk} {t : Nat} {b : Blob}
    (hd' : ∀ n : SegName, d' (n.path dir) =
      if n = .plain t then .kept b else (d (n.path dir)).commit) : Linked dir d' := by
  intro id h
  have hid : d' (segmentPath dir id) = _ := hd' (.plain id)
  by_cases hn : SegName.plain id = .plain t
  · rw [hid, if_pos hn]
    trivial
  · rw [hid, if_neg hn] at h ⊢
    exact linked_commit _ h

/-- Behind the cut, `open` adopts a segment. -/
theorem wpE_openActive_adopts {M : Type} {m : M} {d d' : Disk} {bufs bufs' : List (SegName × Bytes)}
    {I : Disk → Prop} (hd' : Buffers cfg.dir d' bufs')
    (hnames : bufs'.map Prod.fst = bufs.map Prod.fst)
    (hstop : ∀ n, stopsAt bufs = some n → .plain n.id ∈ bufs.map Prod.fst)
    (hleaves : Leaves bufs bufs') (hlink : Linked cfg.dir d → Linked cfg.dir d')
    (hI : Beside cfg.dir I) (hi : I d') :
    wpE (Disk.sem Faults.none) False H (fun _ : Disk × M => True) (openActive cfg)
      (fun seg σ => Adopts cfg.dir I bufs d ⟨⟨seg⟩, .default⟩ σ.1) (fun _ _ => ¬ Adoptable bufs)
      (d', m) := by
  refine wpE_post (wpE_openActive_tip hd' hI hi) (fun seg σ _ hq => ?_) fun _ _ _ hr hadopt => ?_
  · obtain ⟨⟨pre, a, c, htip, hcase⟩, hlink', hi'⟩ := hq
    refine ⟨⟨hstop, fun n hn => ?_⟩, ⟨pre, a, c, htip, ?_⟩, fun h => hlink' (hlink h), hi'⟩
    · rw [← hnames] at hn ⊢
      rcases hcase with rfl | ⟨rfl, -⟩
      · rw [List.map_append, List.map_singleton, List.getLast?_concat] at hn
        obtain rfl := Option.some.inj hn
        exact List.mem_map_of_mem (f := Prod.fst) (List.mem_append_right pre List.mem_cons_self)
      · cases hn
    · rcases hcase with rfl | ⟨rfl, hone⟩
      · exact hleaves
      · rw [hone]
        exact .first (List.map_eq_nil_iff.mp hnames.symm)
  · obtain ⟨n, hn, hno⟩ := hr
    rw [hnames] at hn hno
    exact hno (hadopt.last n hn)

omit [Hashing] in
/-- The cut, where the segment has the log's own name. -/
theorem wpE_truncateTail_plain {M : Type} {m : M} {d : Disk} {pre post : List (SegName × Bytes)}
    {t stop : Nat} {buf : Bytes} {I : Disk → Prop}
    (hb : Buffers cfg.dir d (pre ++ (.plain t, buf) :: post)) (hI : Beside cfg.dir I) (hi : I d)
    (hlt : stop < buf.length) {Q : Unit → Disk × M → Prop} {R : StorageError → Disk × M → Prop}
    (hQ : ∀ d', Buffers cfg.dir d' (pre ++ (.plain t, buf.take stop) :: post) →
      Linked cfg.dir d' → I d' → Q () (d', m)) :
    wpE (Disk.sem Faults.none) False H (fun _ => True) (truncateTail cfg.dir t stop) Q R (d, m) := by
  obtain ⟨blob, hl, hcont⟩ := hb.live (List.mem_append_right pre List.mem_cons_self)
  exact wpE_truncateTail (Tame.none cfg.dir) hI (fun _ _ _ => trivial) hl (by rw [hcont]; exact hlt)
    hi (fun d' hd' hi' => ⟨trivial, hQ d' (hb.cut (by rwa [hcont] at hd')) (linked_of_cut hd') hi'⟩)
    fun hshort => absurd hshort Faults.not_short_none

omit [Hashing] in
/-- The cut, where the name of the segment has a sign: it is made in the file with the log's
own name, if that is there, and the segment stays as it is. -/
theorem wpE_truncateTail_signed {M : Type} {m : M} {d : Disk} {bufs : List (SegName × Bytes)}
    {t stop : Nat} {buf : Bytes} {I : Disk → Prop} (hb : Buffers cfg.dir d bufs)
    (hmem : ((⟨t, true⟩ : SegName), buf) ∈ bufs) (hI : Beside cfg.dir I) (hi : I d)
    {Q : Unit → Disk × M → Prop} {R : StorageError → Disk × M → Prop}
    (hQ : ∀ d' bufs', Buffers cfg.dir d' bufs' → bufs'.map Prod.fst = bufs.map Prod.fst →
      SegName.plain t ∈ bufs.map Prod.fst → ((⟨t, true⟩ : SegName), buf) ∈ bufs' →
      (Linked cfg.dir d → Linked cfg.dir d') → I d' → Q () (d', m))
    (hR : SegName.plain t ∉ bufs.map Prod.fst → ∀ err, R err (d, m)) :
    wpE (Disk.sem Faults.none) False H (fun _ => True) (truncateTail cfg.dir t stop) Q R (d, m) := by
  by_cases hplain : SegName.plain t ∈ bufs.map Prod.fst
  · obtain ⟨⟨n, c⟩, hn, rfl⟩ := List.mem_map.mp hplain
    obtain ⟨blob, hl, hcont⟩ := hb.live hn
    by_cases hshort : blob.content.length ≤ stop
    · exact wpE_truncateTail_short trivial hl hshort (hQ d _ hb rfl hplain hmem (fun h => h) hi)
        fun hf => hf.elim
    · obtain ⟨l₁, l₂, rfl⟩ := List.append_of_mem hn
      have hlong : stop < c.length := by
        rw [hcont] at hshort
        exact Nat.lt_of_not_le hshort
      refine wpE_truncateTail_plain hb hI hi hlong fun d' hd' hlink hi' =>
        hQ d' _ hd' (by rw [List.map_append, List.map_append]; rfl) hplain ?_ (fun _ => hlink) hi'
      rw [List.mem_append, List.mem_cons] at hmem ⊢
      have hsigned : ((⟨t, true⟩, buf) : SegName × Bytes) ≠ (.plain t, c) := fun he =>
        Bool.noConfusion (congrArg (fun s => s.1.signed) he)
      exact hmem.imp_right fun h => Or.inr (h.resolve_left hsigned)
  · refine wpE_truncateTail_missing trivial ?_ fun err => hR hplain err
    exact hb.live_eq_none (hb.fits hmem).plain fun s hs he => hplain (he ▸ List.mem_map_of_mem hs)

/-- **Opening any directory** reads up to the first damage, cuts the damaged segment
off there, and goes on at the last segment. -/
theorem wpE_open_any {M : Type} {m : M} {d : Disk} {bufs : List (SegName × Bytes)} {I : Disk → Prop}
    (hb : Buffers cfg.dir d bufs) (hI : Beside cfg.dir I) (hi : I d) :
    wpE (Disk.sem Faults.none) False H (fun _ : Disk × M => True) (Wal.open cfg)
      (fun x σ => x.2 = replay (byId bufs) .default ∧ x.1.coord = .default ∧
        Adopts cfg.dir I bufs d x.1 σ.1)
      (fun _ _ => ¬ Adoptable bufs) (d, m) := by
  refine wpE_bind.mpr (wpE_recover trivial hb.segments ?_ fun o hf => hf.elim)
  rw [hb.map_segBytes]
  rcases clean_or_stops bufs with ⟨ps, h⟩ | ⟨pre, t, buf, post, ps, qs, stop, r, rfl, h, hs, hr⟩
  · obtain ⟨r', h1, h2, h3⟩ := h.replay [] .default
    obtain ⟨h4, _⟩ := settled_clean h []
    have h5 := h.stopsAt []
    rw [List.append_nil] at h3 h4 h5
    have hstop : (replay (byId bufs) .default).stopReason = .clean := h3 ▸ h2 rfl
    have hset : settled bufs = bufs := h4.trans (List.append_nil _)
    have hnone : stopsAt bufs = none := h5
    have hleaves : Leaves bufs bufs := by
      have hall : Leaves bufs (settled bufs) := .settled fun n hn => by rw [hnone] at hn; cases hn
      rwa [hset] at hall
    rw [if_neg (not_not.mpr hstop)]
    refine wpE_bind.mpr (wpE_post (wpE_openActive_adopts hb rfl
      (fun n hn => by rw [hnone] at hn; cases hn) hleaves (fun h => h) hI hi)
      (fun seg σ _ hq => ?_) fun _ _ _ hr => hr)
    exact wpE_pure.mpr ⟨trivial, rfl, rfl, hq⟩
  · obtain ⟨r', h1, _, h3⟩ := h.replay ((t, buf) :: post) .default
    obtain ⟨h4, _⟩ := settled_clean h ((t, buf) :: post)
    have hstopsAt : stopsAt (pre ++ (t, buf) :: post) = some t :=
      (h.stopsAt _).trans (stopsAt_stop hs hr post)
    obtain ⟨h6, _⟩ := settled_stop hs hr (t := t) post
    obtain ⟨_, _, hle, hclean⟩ := hs.stop_eq
    have hlt : stop < buf.length := Nat.lt_of_le_of_ne (hle (Nat.zero_le _)) fun e =>
      hr (hclean.mpr e)
    rw [h6] at h4
    have hrec : replay (byId (pre ++ (t, buf) :: post)) .default =
        ⟨r'.records ++ qs, some t.id, stop, r⟩ := by
      rw [h3, byId, List.map_cons, replay_cons hs, if_pos hr]
    simp only [hrec]
    rw [if_pos hr]
    have hmem : (t, buf) ∈ pre ++ (t, buf) :: post := List.mem_append_right pre List.mem_cons_self
    -- the rest of `open`, behind the cut
    have hrest : ∀ d' bufs', Buffers cfg.dir d' bufs' →
        bufs'.map Prod.fst = (pre ++ (t, buf) :: post).map Prod.fst →
        SegName.plain t.id ∈ (pre ++ (t, buf) :: post).map Prod.fst →
        Leaves (pre ++ (t, buf) :: post) bufs' → (Linked cfg.dir d → Linked cfg.dir d') → I d' →
        wpE (Disk.sem Faults.none) False H (fun _ : Disk × M => True)
          (openActive cfg >>= fun active => pure
            ((⟨⟨active⟩, .default⟩ : State), (⟨r'.records ++ qs, some t.id, stop, r⟩ : Recovered)))
          (fun x σ => x.2 = ⟨r'.records ++ qs, some t.id, stop, r⟩ ∧ x.1.coord = .default ∧
            Adopts cfg.dir I (pre ++ (t, buf) :: post) d x.1 σ.1)
          (fun _ _ => ¬ Adoptable (pre ++ (t, buf) :: post)) (d', m) := by
      intro d' bufs' hd' hnames hplain hleaves hlink hi'
      refine wpE_bind.mpr (wpE_post (wpE_openActive_adopts hd' hnames (fun n hn => ?_) hleaves hlink
        hI hi') (fun seg σ _ hq => wpE_pure.mpr ⟨trivial, rfl, rfl, hq⟩) fun _ _ _ hr => hr)
      rw [hstopsAt] at hn
      obtain rfl := Option.some.inj hn
      exact hplain
    obtain ⟨t, _ | _⟩ := t
    · refine wpE_bind.mpr (wpE_truncateTail_plain hb hI hi hlt fun d' hd' hlink hi' => ?_)
      refine hrest d' _ ?_ (settled_fst _) (List.mem_map_of_mem (f := Prod.fst) hmem) (.settled ?_)
        (fun _ => hlink) hi'
      · rw [h4]
        exact hd'
      · intro n hn
        rw [hstopsAt] at hn
        exact (Option.some.inj hn).symm ▸ rfl
    · have hbroken : Broken buf := ⟨qs, stop, r, hs, hr⟩
      exact wpE_bind.mpr (wpE_truncateTail_signed hb hmem hI hi
        (fun d' bufs' hd' hnames hplain hin hlink hi' =>
          hrest d' bufs' hd' hnames hplain (.stuck hstopsAt rfl hbroken hin) hlink hi')
        fun hplain err hadopt => hplain (hadopt.stop _ hstopsAt))

/-! ### Appending -/

/-- Appending in a durable mode writes a batch of one frame, unless the file of the next
segment is there already. -/
theorem wpE_append_batch {strict : Prop} {d : Disk} {st : State} {a : Nat} {p : Bytes}
    (hdur : cfg.durability.isDurable) (hlive : (d (segmentPath cfg.dir a)).live.isSome)
    (hw : Writes cfg.dir a st.writer)
    (hidle : st.coord.leaderActive = false) (hqueue : st.coord.queue = [])
    (hbehind : st.coord.syncedThrough ≤ st.coord.nextSeq) :
    wpE (Disk.sem Faults.none) strict H (fun _ : Disk × State => True) (append cfg p)
      (fun _ σ => ∃ a', Batched strict cfg.dir d a [encode p] a' σ.1 ∧ Writes cfg.dir a' σ.2.writer ∧
        σ.2.coord.leaderActive = false ∧ σ.2.coord.queue = [] ∧
        σ.2.coord.syncedThrough ≤ σ.2.coord.nextSeq)
      (fun _ _ => (strict → a + 1 < 2 ^ 64) ∧ (d (segmentPath cfg.dir (succId a))).live.isSome)
      (d, st) := by
  have hbatch : ∀ (seq : Nat) (co : Coord), co.leaderActive = false → co.queue = [] →
      co.syncedThrough ≤ co.nextSeq → wpE (Disk.sem Faults.none) strict H (fun _ => True)
        (writeBatch cfg [(seq, encode p)]) (fun _ τ => ∃ a', Batched strict cfg.dir d a [encode p] a' τ.1 ∧
          Writes cfg.dir a' τ.2 ∧ co.leaderActive = false ∧ co.queue = [] ∧
          co.syncedThrough ≤ co.nextSeq)
        (fun _ _ => (strict → a + 1 < 2 ^ 64) ∧
          (d (segmentPath cfg.dir (succId a))).live.isSome) (d, st.writer) := by
    intro seq co h1 h2 h3
    refine wpE_writeBatch_stage rfl hlive hw (fun _ _ _ _ _ => trivial) (fun ht _ _ _ _ _ => ?_)
      fun a' d' w' hb hw' => ⟨a', hb, hw', h1, h2, h3⟩
    rcases ht with ⟨o, hf⟩ | ⟨_, _, _, hf⟩ | htaken
    · exact hf.elim
    · exact hf.elim
    · exact htaken
  cases hmode : cfg.durability with
  | always =>
    have happ : append cfg p = commitSyncNow cfg (encode p) := by simp only [append, hmode]
    rw [happ]
    exact wpE_commitSyncNow (hbatch 0 st.coord hidle hqueue hbehind)
  | osBuffered =>
    rw [hmode] at hdur
    cases hdur
  | groupCommit =>
    have happ : append cfg p = commitGroup cfg (encode p) := by simp only [append, hmode]
    rw [happ]
    refine wpE_commitGroup hidle hbehind (fun _ => trivial) ?_
    rw [hqueue]
    exact wpE_mono (hbatch _ ⟨[], _, _, false⟩ rfl rfl (Nat.le_refl _)) (fun _ _ _ => trivial)
      (fun _ _ _ hq => hq) fun _ _ _ hr => hr

/-- Where the next segment can be created, the append returns. -/
theorem wpE_append_batched {strict : Prop} {d : Disk} {st : State} {a : Nat} {p : Bytes}
    (hdur : cfg.durability.isDurable) (hlive : (d (segmentPath cfg.dir a)).live.isSome)
    (hnext : (strict → a + 1 < 2 ^ 64) → (d (segmentPath cfg.dir (succId a))).live = none)
    (hw : Writes cfg.dir a st.writer)
    (hidle : st.coord.leaderActive = false) (hqueue : st.coord.queue = [])
    (hbehind : st.coord.syncedThrough ≤ st.coord.nextSeq) :
    wpE (Disk.sem Faults.none) strict H (fun _ : Disk × State => True) (append cfg p)
      (fun _ σ => ∃ a', Batched strict cfg.dir d a [encode p] a' σ.1 ∧ Writes cfg.dir a' σ.2.writer ∧
        σ.2.coord.leaderActive = false ∧ σ.2.coord.queue = [] ∧
        σ.2.coord.syncedThrough ≤ σ.2.coord.nextSeq) (fun _ _ => False) (d, st) := by
  refine wpE_post (wpE_append_batch hdur hlive hw hidle hqueue hbehind) (fun _ _ _ hq => hq) ?_
  rintro _ _ _ ⟨hword, hsome⟩
  rw [hnext hword] at hsome
  cases hsome

/-- What appends of `ps` make of the segments: there are so many bytes more, segments whose
names have a sign stay as they are, and what was clean is clean. -/
structure Extends (bufs : List (SegName × Bytes)) (ps : List Bytes)
    (bufs' : List (SegName × Bytes)) : Prop where
  size_eq : size bufs' = size bufs + (frames ps).length
  signed : ∀ s ∈ bufs, s.1.signed = true → s ∈ bufs'
  clean : ∀ rs, Clean bufs rs → Fits ps → Clean bufs' (rs ++ ps)

namespace Extends

variable {bufs bufs₁ bufs₂ : List (SegName × Bytes)} {ps qs : List Bytes}

theorem refl (bufs : List (SegName × Bytes)) : Extends bufs [] bufs :=
  ⟨rfl, fun _ hs _ => hs, fun rs h _ => by rwa [List.append_nil]⟩

theorem trans (h : Extends bufs ps bufs₁) (h' : Extends bufs₁ qs bufs₂) :
    Extends bufs (ps ++ qs) bufs₂ := by
  refine ⟨?_, fun s hs hn => h'.signed s (h.signed s hs hn) hn, fun rs hc hf => ?_⟩
  · rw [h'.size_eq, h.size_eq, frames_append, List.length_append, Nat.add_assoc]
  · have hps := h.clean rs hc fun p hp => hf p (List.mem_append_left _ hp)
    have hqs := h'.clean _ hps fun p hp => hf p (List.mem_append_right _ hp)
    rwa [List.append_assoc] at hqs

/-- A frame at the end of the last segment. -/
theorem push (pre : List (SegName × Bytes)) (a : Nat) (c p : Bytes) :
    Extends (pre ++ [(.plain a, c)]) [p] (pre ++ [(.plain a, c ++ encode p)]) := by
  refine ⟨?_, fun s hs hn => ?_, fun rs hc hf => hc.push (hf p List.mem_cons_self)⟩
  · have hone : frames [p] = encode p := List.append_nil _
    simp only [size_append, size_cons, size_nil, List.length_append, hone]
    omega
  · rcases List.mem_append.mp hs with hs | hs
    · exact List.mem_append_left _ hs
    · rw [List.mem_singleton.mp hs] at hn
      cases hn

/-- An empty segment more. -/
theorem insert {xs ys : List (SegName × Bytes)} (h : Extends bufs ps (xs ++ ys)) (n : SegName) :
    Extends bufs ps (xs ++ (n, []) :: ys) := by
  refine ⟨?_, fun s hs hn => ?_, fun rs hc hf => (h.clean rs hc hf).insert n⟩
  · rw [← h.size_eq]
    simp only [size_append, size_cons, List.length_nil, Nat.zero_add]
  · rcases List.mem_append.mp (h.signed s hs hn) with hs | hs
    · exact List.mem_append_left _ hs
    · exact List.mem_append_right _ (List.mem_cons_of_mem _ hs)

theorem roll (h : Extends bufs ps bufs₁) (n : SegName) : Extends bufs ps (bufs₁ ++ [(n, [])]) := by
  rw [← List.append_nil bufs₁] at h
  exact h.insert n

end Extends

omit [Hashing] in
/-- Behind the segment with the largest id comes segment 0, which is listed in front. -/
theorem buffers_rolledOver {dir : Dir} {d : Disk} {pre : List (SegName × Bytes)} {a : Nat}
    {c : Bytes} (h : Buffers dir d (pre ++ [(.plain a, c)]))
    (hnone : (d (segmentPath dir 0)).live = none) :
    ∃ xs ys, pre = xs ++ ys ∧
      Buffers dir (start dir d 0) (xs ++ (.plain 0, []) :: ys ++ [(.plain a, c)]) := by
  have hat : start dir d 0 ((SegName.plain 0).path dir) =
      (d ((SegName.plain 0).path dir)).link .empty := start_at dir d 0
  have hempty : (start dir d 0 ((SegName.plain 0).path dir)).live.map Blob.content = some [] := by
    rw [hat, Slot.live_link]
    rfl
  obtain ⟨xs, post, heq, hpre, hb⟩ := h.insert (a := .plain 0) hnone
    (show 0 < 2 ^ 64 by decide) (fun n hn => by rw [start_of_ne hn]) hempty
  rcases List.eq_nil_or_concat post with rfl | ⟨ys, last, rfl⟩
  · have hlt := hpre (.plain a, c) (by
      rw [← List.append_nil xs, ← heq]
      exact List.mem_append_right _ List.mem_cons_self)
    rw [SegName.key_plain, SegName.key_plain] at hlt
    omega
  · rw [List.concat_eq_append, ← List.append_assoc] at heq
    obtain ⟨hpre', hlast⟩ := List.append_inj' heq rfl
    refine ⟨xs, ys, hpre', ?_⟩
    rw [List.concat_eq_append, ← hlast] at hb
    rwa [List.append_assoc, List.cons_append]

/-- What one append does to the segments, in a release build. -/
theorem Tip.extends {dir : Dir} {d d' : Disk} {st : State} {pre : List (SegName × Bytes)}
    {a a' : Nat} {c p : Bytes} (h : Tip dir d st pre a c)
    (hb : Batched False dir d a [encode p] a' d') :
    ∃ pre' b c', Buffers dir d' (pre' ++ [(.plain b, c')]) ∧
      Extends (pre ++ [(.plain a, c)]) [p] (pre' ++ [(.plain b, c')]) := by
  have hflat : [encode p].flatten = encode p := List.append_nil _
  have hsealed : Buffers dir (sealed dir d a [encode p]) (pre ++ [(.plain a, c ++ encode p)]) :=
    h.buffers.put fun b => by rw [Blob.content_sync, Blob.content_append, hflat]
  have hpush := Extends.push pre a c p
  cases hb with
  | stayed => exact ⟨_, _, _, hsealed, hpush⟩
  | rolled hnone _ =>
    have hslot : sealed dir d a [encode p] (segmentPath dir (succId a)) =
        d (segmentPath dir (succId a)) :=
      put_of_ne (n := .plain (succId a)) (SegName.plain_ne (succId_ne a)) ..
    by_cases hword : a + 1 < 2 ^ 64
    · have hroll := (hsealed.roll hword).commit
      rw [← succId_eq hword] at hroll
      exact ⟨_, _, _, hroll, hpush.roll _⟩
    · have hfits : a < 2 ^ 64 := h.buffers.fits (List.mem_append_right pre List.mem_cons_self)
      have hzero : succId a = 0 := by
        rw [succId]
        omega
      rw [← hslot, hzero] at hnone
      obtain ⟨xs, ys, rfl, hover⟩ := buffers_rolledOver hsealed hnone
      have hcommit := hover.commit
      rw [← hzero] at hcommit
      refine ⟨_, _, _, hcommit, ?_⟩
      rw [List.append_assoc xs ys [(SegName.plain a, c ++ encode p)]] at hpush
      have hnew := hpush.insert (.plain (succId a))
      rwa [← List.cons_append, ← List.append_assoc] at hnew

/-- Appending in a durable mode puts the frame at the end. -/
theorem wpE_append_tip {strict : Prop} {d : Disk} {st : State} {pre : List (SegName × Bytes)}
    {a : Nat} {c p : Bytes} (hdur : cfg.durability.isDurable) (h : Tip cfg.dir d st pre a c)
    (hstrict : strict) :
    wpE (Disk.sem Faults.none) strict H (fun _ : Disk × State => True) (append cfg p)
      (fun _ σ => ∃ pre' a' c', Extends (pre ++ [(.plain a, c)]) [p] (pre' ++ [(.plain a', c')]) ∧
        Tip cfg.dir σ.1 σ.2 pre' a' c') (fun _ _ => False) (d, st) := by
  have hnext : (strict → a + 1 < 2 ^ 64) → (d (segmentPath cfg.dir (succId a))).live = none := by
    intro hword
    rw [succId_eq (hword hstrict)]
    exact h.buffers.next_free (hword hstrict)
  refine wpE_post (wpE_append_batched hdur h.buffers.last_live hnext h.writes h.idle h.queue
    h.behind) (fun _ σ _ hq => ?_) fun _ _ _ hf => hf
  obtain ⟨a', hb, hw, h1, h2, h3⟩ := hq
  have hpush := Extends.push pre a c p
  rcases hb.buffers hstrict h.buffers with ⟨rfl, hb'⟩ | ⟨rfl, hb'⟩
  · rw [List.flatten_singleton] at hb'
    exact ⟨_, _, _, hpush, hb', hw, h1, h2, h3⟩
  · rw [List.flatten_singleton] at hb'
    exact ⟨_, _, _, hpush.roll _, hb', hw, h1, h2, h3⟩

/-! ### Appends between two openings -/

/-- With this append the segment with the largest id is full, and the log goes on with
segment 0. -/
def RollsOver (cfg : Config) (p : Bytes) (st : State) : Prop :=
  2 ^ 64 ≤ st.writer.active.id + 1 ∧
    cfg.segmentSize ≤ st.writer.active.writeOffset + (encode p).length

instance (cfg : Config) (p : Bytes) (st : State) : Decidable (RollsOver cfg p st) :=
  inferInstanceAs (Decidable (_ ∧ _))

omit [Hashing] in
theorem exact_maybeRotate {fs : SimFs} {w : Writer}
    (h : w.active.id + 1 < 2 ^ 64 ∨ w.active.writeOffset < cfg.segmentSize) :
    SimFs.Exact (maybeRotate cfg) fs w := by
  refine SimFs.exact_get ?_
  by_cases hlt : w.active.writeOffset < cfg.segmentSize
  · rw [if_pos hlt]
    trivial
  · rw [if_neg hlt]
    have hfits : SimFs.Exact (wrappingSucc w.active.id : Io Writer StorageError Nat) fs w :=
      ⟨h.resolve_right hlt, trivial⟩
    refine SimFs.exact_bind hfits fun _ _ _ _ => ?_
    refine SimFs.exact_bind (SimFs.exact_zoom Writer.segment (SimFs.exact_get trivial))
      fun _ _ _ _ => ?_
    refine SimFs.exact_bind (SimFs.exact_bind trivial fun _ _ _ _ => trivial) fun _ _ _ _ => ?_
    exact SimFs.exact_bind trivial fun _ _ _ _ => trivial

omit [Hashing] in
theorem exact_segmentAppend {fs : SimFs} {w : Writer} (frame : Bytes) :
    SimFs.Exact (Act.zoom Writer.segment (Segment.append frame)) fs w :=
  SimFs.exact_zoom Writer.segment (SimFs.exact_get (SimFs.exact_bind trivial fun _ _ _ _ => trivial))

omit [Hashing] in
theorem exact_segmentSync {fs : SimFs} {w : Writer} :
    SimFs.Exact (Act.zoom Writer.segment Segment.sync) fs w :=
  SimFs.exact_zoom Writer.segment (SimFs.exact_get trivial)

omit [Hashing] in
/-- What the segment has counted when a frame is written. -/
theorem exec_append_count {fs fs' : SimFs} {seg seg' : Segment} {frame : Bytes} {u : Unit}
    (h : fs.exec (Segment.append frame) seg = some (.ok u, fs', seg')) :
    seg' = { seg with writeOffset := seg.writeOffset + frame.length } := by
  obtain ⟨_, _, _, hget, h⟩ := SimFs.exec_bind h
  obtain ⟨⟩ := hget
  obtain ⟨n, _, seg₂, hstore, h⟩ := SimFs.exec_bind h
  obtain ⟨-, hrest⟩ := Prod.mk.inj (Option.some.inj hstore)
  obtain ⟨-, rfl⟩ := Prod.mk.inj hrest
  obtain ⟨-, hrest⟩ := Prod.mk.inj (Option.some.inj h)
  exact (Prod.mk.inj hrest).2.symm

omit [Hashing] in
theorem exec_sync_count {fs fs' : SimFs} {seg seg' : Segment} {u : Unit}
    (h : fs.exec Segment.sync seg = some (.ok u, fs', seg')) : seg' = seg := by
  obtain ⟨_, _, _, hget, h⟩ := SimFs.exec_bind h
  obtain ⟨⟩ := hget
  obtain ⟨-, hrest⟩ := Prod.mk.inj (Option.some.inj h)
  exact (Prod.mk.inj hrest).2.symm

omit [Hashing] in
theorem exec_segment {p : Io Segment StorageError Unit} {fs fs' : SimFs} {w w' : Writer} {u : Unit}
    (h : fs.exec (Act.zoom Writer.segment p) w = some (.ok u, fs', w')) :
    fs.exec p w.active = some (.ok u, fs', w'.active) := by
  rw [SimFs.exec_zoom] at h
  obtain ⟨⟨r, s, seg⟩, hseg, heq⟩ := Option.map_eq_some_iff.mp h
  obtain ⟨rfl, hrest⟩ := Prod.mk.inj heq
  obtain ⟨rfl, rfl⟩ := Prod.mk.inj hrest
  exact hseg

omit [Hashing] in
/-- A batch of one frame loses no bit of an id, if it does not fill the last segment. -/
theorem exact_writeBatch {fs : SimFs} {w : Writer} {seq : Nat} {frame : Bytes}
    (h : w.active.id + 1 < 2 ^ 64 ∨ w.active.writeOffset + frame.length < cfg.segmentSize) :
    SimFs.Exact (writeBatch cfg [(seq, frame)]) fs w := by
  refine SimFs.exact_bind (SimFs.exact_bind (exact_segmentAppend frame) fun _ _ _ _ => trivial)
    fun _ fs₁ w₁ h₁ => SimFs.exact_bind exact_segmentSync fun _ fs₂ w₂ h₂ => exact_maybeRotate ?_
  obtain ⟨_, _, w₀, happ, hnil⟩ := SimFs.exec_bind h₁
  obtain ⟨⟩ := hnil
  rw [exec_sync_count (exec_segment h₂), exec_append_count (exec_segment happ)]
  exact h

omit [Hashing] in
theorem exact_commitSyncNow {fs : SimFs} {st : State} {frame : Bytes}
    (h : st.writer.active.id + 1 < 2 ^ 64 ∨
      st.writer.active.writeOffset + frame.length < cfg.segmentSize) :
    SimFs.Exact (commitSyncNow cfg frame) fs st := by
  refine SimFs.exact_zoom State.writerPart (SimFs.exact_bind (exact_segmentAppend frame)
    fun _ _ _ happ => SimFs.exact_bind exact_segmentSync fun _ _ _ hsync => exact_maybeRotate ?_)
  rw [exec_sync_count (exec_segment hsync), exec_append_count (exec_segment happ)]
  exact h

omit [Hashing] in
theorem exact_commitGroup {fs : SimFs} {st : State} {frame : Bytes} (hqueue : st.coord.queue = [])
    (h : st.writer.active.id + 1 < 2 ^ 64 ∨
      st.writer.active.writeOffset + frame.length < cfg.segmentSize) :
    SimFs.Exact (commitGroup cfg frame) fs st := by
  refine SimFs.exact_modifyGet (SimFs.exact_modifyGet ?_)
  split
  · trivial
  · split
    · trivial
    · refine SimFs.exact_bind (SimFs.exact_attempt (SimFs.exact_zoom State.writerPart ?_))
        fun _ _ _ _ => SimFs.exact_bind trivial fun _ _ _ _ => trivial
      have hbatch : (State.onCoord (Coord.enqueue frame) st).coord.queue =
          [(st.coord.nextSeq + 1, frame)] := by
        show st.coord.queue ++ _ = _
        rw [hqueue]
        rfl
      rw [hbatch]
      exact exact_writeBatch h

/-- **An append loses no bit of an id**, if it does not roll over. -/
theorem exact_append {fs : SimFs} {st : State} {p : Bytes} (hdur : cfg.durability.isDurable)
    (hqueue : st.coord.queue = []) (hroll : ¬ RollsOver cfg p st) :
    SimFs.Exact (append cfg p) fs st := by
  have h : st.writer.active.id + 1 < 2 ^ 64 ∨
      st.writer.active.writeOffset + (encode p).length < cfg.segmentSize := by
    rcases not_and_or.mp hroll with h | h
    · exact Or.inl (Nat.lt_of_not_le h)
    · exact Or.inr (Nat.lt_of_not_le h)
  rw [append]
  cases hmode : cfg.durability with
  | always => exact exact_commitSyncNow h
  | groupCommit => exact exact_commitGroup hqueue h
  | osBuffered =>
    rw [hmode] at hdur
    cases hdur

/-- Appends that all return.  Only the last one may roll over. -/
inductive Appends (cfg : Config) : SimFs → State → List Bytes → SimFs → State → Prop
  | nil {fs : SimFs} {st : State} : Appends cfg fs st [] fs st
  | cons {fs fs₁ fs₂ : SimFs} {st st₁ st₂ : State} {p : Bytes} {ps : List Bytes}
      (h : fs.exec (append cfg p) st = some (.ok (), fs₁, st₁))
      (hroll : ps = [] ∨ ¬ RollsOver cfg p st)
      (tail : Appends cfg fs₁ st₁ ps fs₂ st₂) : Appends cfg fs st (p :: ps) fs₂ st₂

/-- **A run of appends**: the segments grow by the frames, and clean ones stay clean. -/
theorem Appends.spec {fs fs' : SimFs} {st st' : State} {ps : List Bytes}
    (h : Appends cfg fs st ps fs' st') (hdur : cfg.durability.isDurable) :
    ∀ {pre : List (SegName × Bytes)} {a : Nat} {c : Bytes}, fs.Tidy → Tip cfg.dir fs.disk st pre a c →
      ∃ pre' a' c', fs'.Tidy ∧ Buffers cfg.dir fs'.disk (pre' ++ [(.plain a', c')]) ∧
        Extends (pre ++ [(.plain a, c)]) ps (pre' ++ [(.plain a', c')]) := by
  induction h with
  | nil =>
    intro pre a c ht htip
    exact ⟨pre, a, c, ht, htip.buffers, .refl _⟩
  | @cons fs fs₁ fs₂ st st₁ st₂ p ps h hroll tail ih =>
    intro pre a c ht htip
    rcases hroll with rfl | hroll
    · obtain ⟨ht₁, -, a', hb, -⟩ := SimFs.exec_spec ht (H := True)
        (wpE_append_batch hdur htip.buffers.last_live htip.writes htip.idle htip.queue htip.behind) h
      obtain ⟨pre', b, c', hbuf, hext⟩ := htip.extends hb
      cases tail
      exact ⟨pre', b, c', ht₁, hbuf, hext⟩
    · obtain ⟨ht₁, -, pre₁, a₁, c₁, hone, htip₁⟩ := SimFs.exec_exact ht (H := True)
        (wpE_append_tip hdur htip trivial) (exact_append hdur htip.queue hroll) h
      obtain ⟨pre', a', c', ht', hbuf, hext⟩ := ih ht₁ htip₁
      exact ⟨pre', a', c', ht', hbuf, hone.trans hext⟩

/-- The next `open` finds these records and a clean end. -/
def Reopens (cfg : Config) (fs : SimFs) (records : List Bytes) : Prop :=
  ∃ st rec fs', fs.exec (Wal.open cfg) () = some (.ok (st, rec), fs', ()) ∧
    rec.records = records ∧ rec.stopReason = .clean

theorem reopens_iff {fs : SimFs} (ht : fs.Tidy) {pre : List (SegName × Bytes)} {a : Nat}
    {c : Bytes} (hb : Buffers cfg.dir fs.disk (pre ++ [(.plain a, c)])) (records : List Bytes) :
    Reopens cfg fs records ↔ Clean (pre ++ [(.plain a, c)]) records := by
  have hspec := wpE_open_any (H := False) (m := ()) hb (.true _) trivial
  constructor
  · rintro ⟨st, rec, fs', hrun, rfl, hstop⟩
    obtain ⟨_, _, hrec, _⟩ := SimFs.exec_spec ht hspec hrun
    change rec = _ at hrec
    rcases clean_or_stops (pre ++ [(.plain a, c)]) with
      ⟨ps, h⟩ | ⟨pre', t, buf, post, ps, qs, stop, r, heq, h, hs, hr⟩
    · rwa [← h.records, ← hrec] at h
    · obtain ⟨r', _, _, h3⟩ := h.replay ((t, buf) :: post) .default
      rw [heq, h3, byId, List.map_cons, replay_cons hs, if_pos hr] at hrec
      rw [hrec] at hstop
      exact absurd hstop hr
  · intro h
    obtain ⟨_, _, _, hpre, _⟩ := h.of_append
    have hadopt := hpre.adoptable a c
    obtain ⟨r', h1, h2, h3⟩ := h.replay [] .default
    rw [List.append_nil] at h3
    obtain ⟨r, fs', m', hrun⟩ := SimFs.exec_total ht hspec
    obtain ⟨_, _, hpost⟩ := SimFs.exec_spec ht hspec hrun
    cases r with
    | error err => exact absurd hadopt hpost
    | ok x =>
      have hrec : x.2 = r' := hpost.1.trans h3
      refine ⟨x.1, x.2, fs', hrun, ?_, ?_⟩
      · rw [hrec]
        exact h1
      · rw [hrec]
        exact h2 rfl

end Hashed

section Examples

open World

attribute [local instance] Hashing.emptyKey

/-- What `open` returns, and the simulator after it. -/
def opens (cfg : Config) (fs : SimFs) : Option (State × Recovered × SimFs) :=
  match fs.exec (Wal.open cfg) () with
  | some (.ok (st, rec), fs', ()) => some (st, rec, fs')
  | _ => none

theorem exec_of_opens {cfg : Config} {fs fs' : SimFs} {st : State} {rec : Recovered}
    (h : opens cfg fs = some (st, rec, fs')) :
    fs.exec (Wal.open cfg) () = some (.ok (st, rec), fs', ()) := by
  unfold opens at h
  split at h
  · rename_i heq
    rw [heq]
    cases h
    rfl
  · cases h

/-- What an append leaves that returns. -/
def appended (cfg : Config) (p : Bytes) (fs : SimFs) (st : State) : Option (SimFs × State) :=
  match fs.exec (append cfg p) st with
  | some (.ok (), x) => some x
  | _ => none

theorem exec_of_appended {cfg : Config} {p : Bytes} {fs fs' : SimFs} {st st' : State}
    (h : appended cfg p fs st = some (fs', st')) :
    fs.exec (append cfg p) st = some (.ok (), fs', st') := by
  unfold appended at h
  split at h
  · rename_i heq
    rw [heq, Option.some.inj h]
  · cases h

/-- The payloads are appended one by one. -/
def appendEach (cfg : Config) : List Bytes → SimFs → State → Option (SimFs × State)
  | [], fs, st => some (fs, st)
  | p :: ps, fs, st =>
    if ps = [] ∨ ¬ RollsOver cfg p st then
      (appended cfg p fs st).bind fun x => appendEach cfg ps x.1 x.2
    else none

theorem appends_of_appendEach {cfg : Config} : ∀ {ps : List Bytes} {fs fs' : SimFs} {st st' : State},
    appendEach cfg ps fs st = some (fs', st') → Appends cfg fs st ps fs' st' := by
  intro ps
  induction ps with
  | nil =>
    intro fs fs' st st' h
    cases h
    exact .nil
  | cons p ps ih =>
    intro fs fs' st st' h
    rw [appendEach] at h
    split at h
    · rename_i hroll
      obtain ⟨x, happ, htail⟩ := Option.bind_eq_some_iff.mp h
      exact .cons (exec_of_appended happ) hroll (ih htail)
    · cases h

/-- Five segments, one of them under a name with a sign.  The fourth one ends in a torn
frame, and the last one is empty. -/
def torn : SimFs :=
  let s₁ := (SimFs.new calm).place (segmentPath demo.dir 1) (frames [[1], [2, 2]])
  let s₂ := s₁.place (signedPath demo.dir 2) (frames [[3]])
  let s₃ := s₂.place (segmentPath demo.dir 2) []
  let s₄ := s₃.place (segmentPath demo.dir 4) (frames [[4, 4, 4]] ++ (encode [5]).take 6)
  s₄.place (segmentPath demo.dir 5) []

theorem torn_tidy : torn.Tidy :=
  SimFs.place_tidy (SimFs.place_tidy (SimFs.place_tidy (SimFs.place_tidy
    (SimFs.place_tidy (SimFs.new_tidy _) ..) ..) ..) ..) ..

/-- A segment with one stray byte, and behind it one that holds the frame of an
empty payload. -/
def stray : SimFs :=
  ((SimFs.new calm).place (segmentPath demo.dir 1) [0]).place (segmentPath demo.dir 2)
    (List.replicate 8 0)

/-- The last segment that there can be, with nothing in it. -/
def lastOne : SimFs := (SimFs.new calm).place (segmentPath demo.dir (2 ^ 64 - 1)) []

theorem not_reopens {fs fs' : SimFs} {st : State} {rec : Recovered} {records : List Bytes}
    (h : opens demo fs = some (st, rec, fs')) (hne : rec.records ≠ records) :
    ¬ Reopens demo fs records := by
  rintro ⟨st', rec', fs'', hopen, hrec, _⟩
  rw [exec_of_opens h] at hopen
  injection hopen with hopen
  injection hopen with hopen
  injection hopen with hopen
  injection hopen with _ heq
  exact hne (heq ▸ hrec)

end Examples

end AccretionDb.Wal
