import AccretionDb.Wal.Batch

/-! # The log as the process sees it

Here a segment is its bytes, whatever they are and whether or not they are synced:
this is what `open` reads.  `Buffers` lists the segments, `Clean` says that all of
them scan to the end, `settled` is what `open` makes of them.
-/

namespace AccretionDb.Wal

open CrashLogic

/-- The segments the process sees, in the order of a listing. -/
structure Buffers (dir : Dir) (d : Disk) (bufs : List (SegName × Bytes)) : Prop where
  sorted : bufs.Pairwise (·.1.key < ·.1.key)
  mem : ∀ n b, (n, b) ∈ bufs ↔ n.Fits ∧ (d (n.path dir)).live.map Blob.content = some b

/-- The segments under their ids, as `recover` names them. -/
def byId (bufs : List (SegName × Bytes)) : List (Nat × Bytes) := bufs.map fun s => (s.1.id, s.2)

namespace Buffers

variable {dir : Dir} {d d' : Disk} {bufs : List (SegName × Bytes)}

/-- No segment is there. -/
theorem of_none (h : ∀ n : SegName, (d (n.path dir)).live = none) : Buffers dir d [] :=
  ⟨.nil, fun n b => ⟨fun hm => absurd hm List.not_mem_nil, fun ⟨_, hl⟩ => by rw [h] at hl; cases hl⟩⟩

theorem live (h : Buffers dir d bufs) {n : SegName} {b : Bytes} (hm : (n, b) ∈ bufs) :
    ∃ blob, (d (n.path dir)).live = some blob ∧ blob.content = b :=
  Option.map_eq_some_iff.mp ((h.mem n b).mp hm).2

theorem fits (h : Buffers dir d bufs) {n : SegName} {b : Bytes} (hm : (n, b) ∈ bufs) : n.Fits :=
  ((h.mem n b).mp hm).1

/-- A file that is not listed is not there. -/
theorem live_eq_none (h : Buffers dir d bufs) {n : SegName} (hn : n.Fits)
    (hno : ∀ s ∈ bufs, s.1 ≠ n) : (d (n.path dir)).live = none := by
  cases hl : (d (n.path dir)).live with
  | none => rfl
  | some b =>
    have hm := (h.mem n b.content).mpr ⟨hn, by rw [hl]; rfl⟩
    exact absurd rfl (hno _ hm)

theorem segments (h : Buffers dir d bufs) : Segments dir d (bufs.map Prod.fst) where
  sorted := List.pairwise_map.mpr h.sorted
  mem n := by
    constructor
    · intro hm
      obtain ⟨s, hs, rfl⟩ := List.mem_map.mp hm
      obtain ⟨blob, hl, _⟩ := h.live hs
      exact ⟨h.fits hs, by rw [hl]; rfl⟩
    · rintro ⟨hn, hs⟩
      obtain ⟨b, hb⟩ := Option.isSome_iff_exists.mp hs
      exact List.mem_map.mpr ⟨(n, b.content), (h.mem n _).mpr ⟨hn, by rw [hb]; rfl⟩, rfl⟩

theorem segBytes_eq (h : Buffers dir d bufs) {s : SegName × Bytes} (hs : s ∈ bufs) :
    segBytes dir d s.1 = s.2 := by
  obtain ⟨blob, hb, he⟩ := h.live hs
  rw [segBytes, hb]
  exact he

/-- The listed segments with what is read of them. -/
theorem map_segBytes (h : Buffers dir d bufs) :
    (bufs.map Prod.fst).map (fun n => (n.id, segBytes dir d n)) = byId bufs := by
  rw [List.map_map]
  exact List.map_congr_left fun s hs => by
    rw [Function.comp_apply, h.segBytes_eq hs]

theorem of_segments {ns : List SegName} (h : Segments dir d ns) :
    Buffers dir d (ns.map fun n => (n, segBytes dir d n)) where
  sorted := List.pairwise_map.mpr h.sorted
  mem n b := by
    rw [List.mem_map]
    constructor
    · rintro ⟨j, hj, he⟩
      obtain ⟨rfl, rfl⟩ := Prod.mk.inj he
      obtain ⟨hn, hs⟩ := (h.mem j).mp hj
      obtain ⟨blob, hb⟩ := Option.isSome_iff_exists.mp hs
      refine ⟨hn, ?_⟩
      rw [segBytes, hb]
      rfl
    · rintro ⟨hn, hb⟩
      obtain ⟨blob, hl, rfl⟩ := Option.map_eq_some_iff.mp hb
      refine ⟨n, (h.mem n).mpr ⟨hn, by rw [hl]; rfl⟩, ?_⟩
      rw [segBytes, hl]
      rfl

/-- There is only one such list. -/
theorem unique {bufs' : List (SegName × Bytes)} (h : Buffers dir d bufs)
    (h' : Buffers dir d bufs') : bufs = bufs' :=
  eq_of_sorted_of_mem h.sorted h'.sorted fun s => (h.mem s.1 s.2).trans (h'.mem s.1 s.2).symm

theorem congr (h : Buffers dir d bufs)
    (hd : ∀ n : SegName, (d' (n.path dir)).live = (d (n.path dir)).live) :
    Buffers dir d' bufs :=
  ⟨h.sorted, fun n b => by rw [hd]; exact h.mem n b⟩

/-- Only one name of the list is `a`. -/
theorem ne_of_mem {pre post : List (SegName × Bytes)} {a : SegName} {c : Bytes}
    (h : Buffers dir d (pre ++ (a, c) :: post)) {s : SegName × Bytes} (hs : s ∈ pre ++ post) :
    s.1 ≠ a := by
  have hpw := h.sorted
  rw [List.pairwise_append, List.pairwise_cons] at hpw
  obtain ⟨_, ⟨hpost, _⟩, hpre⟩ := hpw
  rintro rfl
  rcases List.mem_append.mp hs with hs | hs
  · exact Nat.lt_irrefl _ (hpre s hs (s.1, c) List.mem_cons_self)
  · exact Nat.lt_irrefl _ (hpost s hs)

/-- One segment's bytes change. -/
theorem set {pre post : List (SegName × Bytes)} {a : SegName} {c c' : Bytes}
    (h : Buffers dir d (pre ++ (a, c) :: post))
    (hd : ∀ n, n ≠ a → (d' (n.path dir)).live = (d (n.path dir)).live)
    (ha : (d' (a.path dir)).live.map Blob.content = some c') :
    Buffers dir d' (pre ++ (a, c') :: post) := by
  refine ⟨?_, fun n b => ?_⟩
  · have hpw := h.sorted
    rw [List.pairwise_append, List.pairwise_cons] at hpw ⊢
    exact ⟨hpw.1, hpw.2.1, fun s hs t ht => by
      rcases List.mem_cons.mp ht with rfl | ht
      · exact hpw.2.2 s hs (a, c) List.mem_cons_self
      · exact hpw.2.2 s hs t (List.mem_cons_of_mem _ ht)⟩
  · by_cases hn : n = a
    · subst hn
      have hfits := h.fits (List.mem_append_right pre List.mem_cons_self)
      have hno : ∀ b, (n, b) ∉ pre ++ post := fun b hm => h.ne_of_mem hm rfl
      have hmid : ∀ x, (n, b) ∈ pre ++ (n, x) :: post ↔ b = x := by
        intro x
        constructor
        · intro hm
          rcases List.mem_append.mp hm with hm | hm
          · exact absurd (List.mem_append_left post hm) (hno b)
          · rcases List.mem_cons.mp hm with hm | hm
            · exact (Prod.mk.inj hm).2
            · exact absurd (List.mem_append_right pre hm) (hno b)
        · rintro rfl
          exact List.mem_append_right _ List.mem_cons_self
      rw [hmid, ha]
      exact ⟨fun hb => ⟨hfits, by rw [hb]⟩, fun hb => (Option.some.inj hb.2).symm⟩
    · have hmid : ∀ x, (n, b) ∈ pre ++ (a, x) :: post ↔ (n, b) ∈ pre ++ post := by
        intro x
        simp only [List.mem_append, List.mem_cons, Prod.mk.injEq, hn, false_and, false_or]
      rw [hd n hn, hmid c', ← hmid c]
      exact h.mem n b

/-- A segment starts between the others. -/
theorem between {a : SegName} {pre post : List (SegName × Bytes)} (h : Buffers dir d (pre ++ post))
    (hpre : ∀ s ∈ pre, s.1.key < a.key) (hpost : ∀ s ∈ post, a.key < s.1.key) (hfits : a.Fits)
    {c : Bytes} (hd : ∀ n, n ≠ a → (d' (n.path dir)).live = (d (n.path dir)).live)
    (ha : (d' (a.path dir)).live.map Blob.content = some c) :
    Buffers dir d' (pre ++ (a, c) :: post) := by
  refine ⟨?_, fun n b => ?_⟩
  · have hpw := h.sorted
    rw [List.pairwise_append] at hpw ⊢
    refine ⟨hpw.1, List.pairwise_cons.mpr ⟨hpost, hpw.2.1⟩, fun s hs t ht => ?_⟩
    rcases List.mem_cons.mp ht with rfl | ht
    · exact hpre s hs
    · exact hpw.2.2 s hs t ht
  · have hmid : (n, b) ∈ pre ++ (a, c) :: post ↔ (n = a ∧ b = c) ∨ (n, b) ∈ pre ++ post := by
      rw [List.mem_append, List.mem_cons, List.mem_append, Prod.mk.injEq]
      exact or_left_comm
    rw [hmid]
    by_cases hn : n = a
    · subst hn
      have hno : (n, b) ∉ pre ++ post := fun hm => by
        rcases List.mem_append.mp hm with hm | hm
        · exact Nat.lt_irrefl _ (hpre _ hm)
        · exact Nat.lt_irrefl _ (hpost _ hm)
      rw [ha]
      constructor
      · rintro (⟨_, rfl⟩ | hm)
        · exact ⟨hfits, rfl⟩
        · exact absurd hm hno
      · exact fun hb => Or.inl ⟨rfl, (Option.some.inj hb.2).symm⟩
    · rw [hd n hn]
      exact ⟨fun hm => (h.mem n b).mp (hm.resolve_left fun e => hn e.1),
        fun hb => Or.inr ((h.mem n b).mpr hb)⟩

/-- A segment starts behind the others. -/
theorem concat {a : SegName} (h : Buffers dir d bufs) (hlt : ∀ s ∈ bufs, s.1.key < a.key)
    (hfits : a.Fits) {c : Bytes}
    (hd : ∀ n, n ≠ a → (d' (n.path dir)).live = (d (n.path dir)).live)
    (ha : (d' (a.path dir)).live.map Blob.content = some c) :
    Buffers dir d' (bufs ++ [(a, c)]) := by
  rw [← List.append_nil bufs] at h
  exact h.between hlt (fun s hs => absurd hs List.not_mem_nil) hfits hd ha

/-- A segment that was not there has its place among the others. -/
theorem insert {a : SegName} (h : Buffers dir d bufs) (hnone : (d (a.path dir)).live = none)
    (hfits : a.Fits) {c : Bytes}
    (hd : ∀ n, n ≠ a → (d' (n.path dir)).live = (d (n.path dir)).live)
    (ha : (d' (a.path dir)).live.map Blob.content = some c) :
    ∃ pre post, bufs = pre ++ post ∧ (∀ s ∈ pre, s.1.key < a.key) ∧
      Buffers dir d' (pre ++ (a, c) :: post) := by
  let before : SegName × Bytes → Bool := fun s => decide (s.1.key < a.key)
  have hsplit : bufs = bufs.takeWhile before ++ bufs.dropWhile before :=
    List.takeWhile_append_dropWhile.symm
  have hpre : ∀ s ∈ bufs.takeWhile before, s.1.key < a.key := fun s hs =>
    of_decide_eq_true (List.all_eq_true.mp List.all_takeWhile s hs)
  have hpost : ∀ s ∈ bufs.dropWhile before, a.key < s.1.key := by
    intro s hs
    -- the first one is not before the new one, nor is it the new one
    have hne : s.1.key ≠ a.key := by
      intro he
      obtain ⟨blob, hl, _⟩ := h.live (n := s.1) (b := s.2) (hsplit ▸ List.mem_append_right _ hs)
      rw [SegName.key_inj he, hnone] at hl
      cases hl
    refine Nat.lt_of_le_of_ne (Nat.le_of_not_lt fun hlt => ?_) hne.symm
    have hsorted := (List.pairwise_append.mp (hsplit ▸ h.sorted)).2.1
    cases hdrop : bufs.dropWhile before with
    | nil =>
      rw [hdrop] at hs
      cases hs
    | cons t rest =>
      have ht : before t = false := by
        have := List.head?_dropWhile_not before bufs
        rw [hdrop] at this
        exact Bool.eq_false_iff.mpr (by simpa using this)
      have hle : a.key ≤ t.1.key := Nat.le_of_not_lt (of_decide_eq_false ht)
      rw [hdrop] at hs hsorted
      rcases List.mem_cons.mp hs with rfl | hs
      · omega
      · have := (List.pairwise_cons.mp hsorted).1 s hs
        omega
  exact ⟨_, _, hsplit, hpre, (hsplit ▸ h).between hpre hpost hfits hd ha⟩

theorem commit (h : Buffers dir d bufs) : Buffers dir (d.commit dir) bufs :=
  h.congr fun n => by rw [commit_name, Slot.live_commit]

/-- Bytes are appended to a segment. -/
theorem put {pre post : List (SegName × Bytes)} {a : Nat} {c x : Bytes} {f : Blob → Blob}
    (h : Buffers dir d (pre ++ (.plain a, c) :: post))
    (hf : ∀ b, (f b).content = b.content ++ x) :
    Buffers dir (Wal.put dir d a f) (pre ++ (.plain a, c ++ x) :: post) := by
  obtain ⟨blob, hl, hcont⟩ := h.live (List.mem_append_right pre List.mem_cons_self)
  refine h.set (fun n hn => by rw [put_of_ne hn]) ?_
  have hat : Wal.put dir d a f ((SegName.plain a).path dir) =
      (d ((SegName.plain a).path dir)).edit f := put_at dir d a f
  rw [hat, Slot.live_edit, hl]
  show some ((f blob).content) = _
  rw [hf, hcont]

/-- A segment is cut off. -/
theorem cut {pre post : List (SegName × Bytes)} {t : Nat} {c : Bytes} {stop : Nat}
    (h : Buffers dir d (pre ++ (.plain t, c) :: post)) (hd : ∀ n : SegName, d' (n.path dir) =
      if n = .plain t then .kept ⟨c.take stop, []⟩ else (d (n.path dir)).commit) :
    Buffers dir d' (pre ++ (.plain t, c.take stop) :: post) := by
  refine h.set (fun n hn => ?_) ?_
  · rw [hd, if_neg hn, Slot.live_commit]
  · rw [hd, if_pos rfl]
    show some ((Blob.mk (c.take stop) []).content) = _
    rw [Blob.content_mk, List.append_nil]

/-- The next segment is started. -/
theorem start {a : Nat} (h : Buffers dir d bufs) (hlt : ∀ s ∈ bufs, s.1.key < 2 * a + 1)
    (hword : a < 2 ^ 64) : Buffers dir (Wal.start dir d a) (bufs ++ [(.plain a, [])]) := by
  refine h.concat (a := .plain a) hlt hword (fun n hn => by rw [start_of_ne hn]) ?_
  have hat : Wal.start dir d a ((SegName.plain a).path dir) =
      (d ((SegName.plain a).path dir)).link .empty := start_at dir d a
  rw [hat, Slot.live_link]
  rfl

theorem le_last {pre : List (SegName × Bytes)} {a : SegName} {c : Bytes}
    (h : Buffers dir d (pre ++ [(a, c)])) : ∀ s ∈ pre ++ [(a, c)], s.1.key ≤ a.key := by
  intro s hs
  have hpw := h.sorted
  rw [List.pairwise_append] at hpw
  rcases List.mem_append.mp hs with hs | hs
  · exact Nat.le_of_lt (hpw.2.2 s hs _ List.mem_cons_self)
  · rw [List.mem_singleton.mp hs]

theorem lt_succ {pre : List (SegName × Bytes)} {a : Nat} {c : Bytes}
    (h : Buffers dir d (pre ++ [(.plain a, c)])) :
    ∀ s ∈ pre ++ [(SegName.plain a, c)], s.1.key < 2 * (a + 1) := by
  intro s hs
  have hle := h.le_last s hs
  rw [SegName.key_plain] at hle
  omega

/-- No segment comes behind the last one, so the next one can be created. -/
theorem next_free {pre : List (SegName × Bytes)} {a : Nat} {c : Bytes}
    (h : Buffers dir d (pre ++ [(.plain a, c)])) (hword : a + 1 < 2 ^ 64) :
    (d (segmentPath dir (a + 1))).live = none := by
  refine h.live_eq_none (n := .plain (a + 1)) hword fun s hs he => ?_
  have := h.lt_succ s hs
  rw [he, SegName.key_plain] at this
  omega

/-- The next segment is started behind the last one. -/
theorem roll {pre : List (SegName × Bytes)} {a : Nat} {c : Bytes}
    (h : Buffers dir d (pre ++ [(.plain a, c)])) (hword : a + 1 < 2 ^ 64) :
    Buffers dir (Wal.start dir d (a + 1)) (pre ++ [(.plain a, c)] ++ [(.plain (a + 1), [])]) :=
  h.start (fun s hs => (h.lt_succ s hs).trans (Nat.lt_succ_self _)) hword

theorem last_live {pre : List (SegName × Bytes)} {a : Nat} {c : Bytes}
    (h : Buffers dir d (pre ++ [(.plain a, c)])) : (d (segmentPath dir a)).live.isSome := by
  obtain ⟨blob, hl, _⟩ := h.live (List.mem_append_right pre List.mem_cons_self)
  change (d (segmentPath dir a)).live = some blob at hl
  rw [hl]
  rfl

end Buffers

/-- Every segment's name is durable. -/
def Linked (dir : Dir) (d : Disk) : Prop :=
  ∀ id, (d (segmentPath dir id)).live.isSome → (d (segmentPath dir id)).linked

theorem linked_commit (s : Slot) (h : s.commit.live.isSome) : s.commit.linked := by
  cases s with
  | absent | ghost _ => cases h
  | fresh b | kept b | shadow b _ => trivial

theorem Linked.commit (dir : Dir) (d : Disk) : Linked dir (d.commit dir) := by
  intro id h
  rw [commit_segment] at h ⊢
  exact linked_commit _ h

/-- What a batch does to the segments. -/
theorem Batched.buffers {strict : Prop} {dir : Dir} {d d' : Disk} {pre : List (SegName × Bytes)}
    {a a' : Nat} {c : Bytes} {fs : List Bytes} (h : Batched strict dir d a fs a' d')
    (hstrict : strict) (hb : Buffers dir d (pre ++ [(.plain a, c)])) :
    a' = a ∧ Buffers dir d' (pre ++ [(.plain a, c ++ fs.flatten)]) ∨
      a' = a + 1 ∧ Buffers dir d' (pre ++ [(.plain a, c ++ fs.flatten)] ++ [(.plain (a + 1), [])]) := by
  have hsealed : Buffers dir (sealed dir d a fs) (pre ++ [(.plain a, c ++ fs.flatten)]) :=
    hb.put fun b => by rw [Blob.content_sync, Blob.content_append]
  cases h with
  | stayed => exact Or.inl ⟨rfl, hsealed⟩
  | rolled _ hword =>
    have hroll := (hsealed.roll (hword hstrict)).commit
    rw [← succId_eq (hword hstrict)] at hroll ⊢
    exact Or.inr ⟨rfl, hroll⟩

/-- The segments on the way, if no frame is written in part. -/
theorem Stage.buffers {strict : Prop} {dir : Dir} {e : Faults} {d d' : Disk}
    {pre : List (SegName × Bytes)} {a a' : Nat} {c : Bytes} {fs : List Bytes}
    (h : Stage strict dir e d a fs a' d') (hstrict : strict) (he : ∀ p data n, ¬ e.short p data n)
    (hb : Buffers dir d (pre ++ [(.plain a, c)])) :
    (∃ done, done <+: fs ∧ Buffers dir d' (pre ++ [(.plain a, c ++ done.flatten)])) ∨
      Buffers dir d' (pre ++ [(.plain a, c ++ fs.flatten)] ++ [(.plain (a + 1), [])]) := by
  have hsealed : Buffers dir (sealed dir d a fs) (pre ++ [(.plain a, c ++ fs.flatten)]) :=
    hb.put fun b => by rw [Blob.content_sync, Blob.content_append]
  have hroll : (strict → a + 1 < 2 ^ 64) → Buffers dir (start dir (sealed dir d a fs) (succId a))
      (pre ++ [(.plain a, c ++ fs.flatten)] ++ [(.plain (a + 1), [])]) := by
    intro hword
    rw [succId_eq (hword hstrict)]
    exact hsealed.roll (hword hstrict)
  cases h with
  | @wrote done rest hd => exact Or.inl ⟨done, ⟨rest, hd⟩, hb.put fun b => Blob.content_append b _⟩
  | broke hd hn hs => exact absurd hs (he _ _ _)
  | synced => exact Or.inl ⟨fs, List.prefix_refl fs, hsealed⟩
  | started _ hword => exact Or.inr (hroll hword)
  | listed _ hword => exact Or.inr (hroll hword).commit
  | rolled _ hword => exact Or.inr (hroll hword).commit

/-! ### What is read -/

variable {α : Type}

/-- The bytes of all segments. -/
def size (bufs : List (α × Bytes)) : Nat := (bufs.map fun s => s.2.length).sum

theorem size_nil : size ([] : List (α × Bytes)) = 0 := rfl

theorem size_append (xs ys : List (α × Bytes)) : size (xs ++ ys) = size xs + size ys := by
  simp only [size, List.map_append, List.sum_append]

theorem size_cons (s : α × Bytes) (xs : List (α × Bytes)) :
    size (s :: xs) = s.2.length + size xs := by
  simp only [size, List.map_cons, List.sum_cons]

theorem size_eq_zero : ∀ {bufs : List (α × Bytes)}, size bufs = 0 → ∀ s ∈ bufs, s.2 = [] := by
  intro bufs
  induction bufs with
  | nil => exact fun _ s hs => absurd hs List.not_mem_nil
  | cons t bufs ih =>
    intro h s hs
    rw [size_cons] at h
    rcases List.mem_cons.mp hs with rfl | hs
    · exact List.length_eq_zero_iff.mp (by omega)
    · exact ih (by omega) s hs

section Reading

variable [Hashing]

/-- Every segment scans to its end, and together they yield these payloads. -/
inductive Clean : List (α × Bytes) → List Bytes → Prop
  | nil : Clean [] []
  | cons {id : α} {buf : Bytes} {stop : Nat} {ps qs : List Bytes} {bufs : List (α × Bytes)}
      (h : Scan buf 0 ps stop .clean) (tail : Clean bufs qs) : Clean ((id, buf) :: bufs) (ps ++ qs)

namespace Clean

variable {bufs : List (α × Bytes)} {ps : List Bytes}

theorem size_eq (h : Clean bufs ps) : size bufs = (frames ps).length ∧ Fits ps := by
  induction h with
  | nil => exact ⟨rfl, nofun⟩
  | @cons id buf stop ps qs bufs h tail ih =>
    obtain ⟨h1, h2, _, h4⟩ := h.stop_eq
    have hstop : stop = buf.length := h4.mp rfl
    refine ⟨?_, h1.append ih.2⟩
    rw [size_cons, ih.1, frames_append, List.length_append]
    show buf.length + _ = _
    omega

theorem append {xs ys : List (α × Bytes)} {ps qs : List Bytes} (h : Clean xs ps)
    (h' : Clean ys qs) : Clean (xs ++ ys) (ps ++ qs) := by
  induction h with
  | nil => exact h'
  | cons h tail ih =>
    rw [List.append_assoc]
    exact .cons h ih

theorem of_append {xs ys : List (α × Bytes)} {ps : List Bytes} (h : Clean (xs ++ ys) ps) :
    ∃ qs rs, ps = qs ++ rs ∧ Clean xs qs ∧ Clean ys rs := by
  induction xs generalizing ps with
  | nil => exact ⟨[], ps, rfl, .nil, h⟩
  | cons x xs ih =>
    cases h with
    | @cons id buf stop ps' _ _ h tail =>
      obtain ⟨qs, rs, rfl, h1, h2⟩ := ih tail
      exact ⟨ps' ++ qs, rs, (List.append_assoc ..).symm, .cons h h1, h2⟩

theorem of_empty : ∀ {bufs : List (α × Bytes)}, (∀ s ∈ bufs, s.2 = []) → Clean bufs [] := by
  intro bufs
  induction bufs with
  | nil => exact fun _ => .nil
  | cons s bufs ih =>
    obtain ⟨id, buf⟩ := s
    intro h
    obtain rfl : buf = [] := h _ List.mem_cons_self
    exact .cons (.done rfl) (ih fun s hs => h s (List.mem_cons_of_mem _ hs))

/-- An empty segment changes nothing. -/
theorem insert {xs ys : List (α × Bytes)} (h : Clean (xs ++ ys) ps) (id : α) :
    Clean (xs ++ (id, []) :: ys) ps := by
  obtain ⟨qs, rs, rfl, hxs, hys⟩ := h.of_append
  exact hxs.append (.cons (.done rfl) hys)

/-- A frame behind the last segment's bytes is read last. -/
theorem push {pre : List (α × Bytes)} {a : α} {c : Bytes} (h : Clean (pre ++ [(a, c)]) ps)
    {p : Bytes} (hp : p.length < 2 ^ 32) : Clean (pre ++ [(a, c ++ encode p)]) (ps ++ [p]) := by
  induction pre generalizing ps with
  | nil =>
    cases h with
    | @cons _ _ stop ps qs _ h tail =>
      cases tail
      obtain ⟨_, _, _, h4⟩ := h.stop_eq
      obtain rfl : stop = c.length := h4.mp rfl
      have hrest : Scan (c ++ encode p) c.length [p] (c ++ encode p).length .clean := by
        have hone : frames [p] = encode p := List.append_nil _
        have hd : Scan (c ++ frames [p] ++ []) (c ++ frames [p]).length []
            (c ++ encode p).length .clean := by
          rw [hone, List.append_nil]
          exact .done rfl
        have hf : Fits [p] := fun q hq => List.mem_singleton.mp hq ▸ hp
        have := Scan.of_frames c hf hd
        rwa [hone, List.append_nil] at this
      have hall : Scan (c ++ encode p) 0 (ps ++ [p]) (c ++ encode p).length .clean := by
        have := h.extend (by rw [List.take_length]; exact hrest)
        rwa [List.take_length] at this
      rw [List.append_nil]
      have hcons : Clean [(a, c ++ encode p)] (ps ++ [p] ++ []) := .cons hall .nil
      rwa [List.append_nil] at hcons
  | cons s pre ih =>
    cases h with
    | cons h tail =>
      rw [List.append_assoc]
      exact .cons h (ih tail)

/-- Clean segments are read whole. -/
theorem replay {bufs : List (SegName × Bytes)} (h : Clean bufs ps)
    (rest : List (SegName × Bytes)) (r : Recovered) :
    ∃ r', r'.records = r.records ++ ps ∧ (r.stopReason = .clean → r'.stopReason = .clean) ∧
      Wal.replay (byId (bufs ++ rest)) r = Wal.replay (byId rest) r' := by
  induction h generalizing r with
  | nil => exact ⟨r, (List.append_nil _).symm, fun h => h, rfl⟩
  | @cons id buf stop ps qs bufs h tail ih =>
    obtain ⟨r', h1, h2, h3⟩ := ih ⟨r.records ++ ps, some id.id, stop, .clean⟩
    refine ⟨r', ?_, fun _ => h2 rfl, ?_⟩
    · rw [h1, List.append_assoc]
    · rw [List.cons_append, byId, List.map_cons, replay_cons h, if_neg (by simp)]
      exact h3

end Clean

/-- Either all segments are clean, or one is not and the replay ends there. -/
theorem clean_or_stops : ∀ bufs : List (α × Bytes), (∃ ps, Clean bufs ps) ∨
    ∃ pre t buf post ps qs stop r, bufs = pre ++ (t, buf) :: post ∧ Clean pre ps ∧
      Scan buf 0 qs stop r ∧ r ≠ .clean := by
  intro bufs
  induction bufs with
  | nil => exact Or.inl ⟨[], .nil⟩
  | cons s bufs ih =>
    obtain ⟨id, buf⟩ := s
    obtain ⟨ps, stop, r, hs⟩ := Scan.exists_scan buf
    by_cases hr : r = .clean
    · subst hr
      rcases ih with ⟨qs, h⟩ | ⟨pre, t, buf', post, qs, rs, stop', r', rfl, h1, h2, h3⟩
      · exact Or.inl ⟨_, .cons hs h⟩
      · exact Or.inr ⟨(id, buf) :: pre, t, buf', post, _, rs, stop', r', rfl, .cons hs h1, h2, h3⟩
    · exact Or.inr ⟨[], id, buf, bufs, [], ps, stop, r, rfl, .nil, hs, hr⟩

/-- The segments as `open` leaves them: the first one that does not scan to its end
is cut off where the scan stopped. -/
def settled : List (α × Bytes) → List (α × Bytes)
  | [] => []
  | (id, buf) :: rest =>
    match scanBuffer buf [] with
    | (_, _, .clean) => (id, buf) :: settled rest
    | (_, validLen, _) => (id, buf.take validLen) :: rest

/-- The segments behind the first one that does not scan to its end. -/
def afterStop : List (α × Bytes) → List (α × Bytes)
  | [] => []
  | (_, buf) :: rest =>
    match scanBuffer buf [] with
    | (_, _, .clean) => afterStop rest
    | _ => rest

/-- The segment at which the replay ends early. -/
def stopsAt : List (α × Bytes) → Option α
  | [] => none
  | (id, buf) :: rest =>
    match scanBuffer buf [] with
    | (_, _, .clean) => stopsAt rest
    | _ => some id

/-- The bytes do not scan to their end. -/
def Broken (buf : Bytes) : Prop := ∃ ps stop r, Scan buf 0 ps stop r ∧ r ≠ .clean

theorem Clean.not_broken {bufs : List (α × Bytes)} {ps : List Bytes} (h : Clean bufs ps) :
    ∀ s ∈ bufs, ¬ Broken s.2 := by
  induction h with
  | nil => exact nofun
  | cons h tail ih =>
    intro s hs
    rcases List.mem_cons.mp hs with rfl | hs
    · rintro ⟨qs, stop, r, hscan, hr⟩
      have heq := (h.scanBuffer_eq []).symm.trans (hscan.scanBuffer_eq [])
      exact hr (congrArg (fun x => x.2.2) heq).symm
    · exact ih s hs

theorem settled_clean {bufs : List (α × Bytes)} {ps : List Bytes} (h : Clean bufs ps)
    (rest : List (α × Bytes)) :
    settled (bufs ++ rest) = bufs ++ settled rest ∧ afterStop (bufs ++ rest) = afterStop rest := by
  induction h with
  | nil => exact ⟨rfl, rfl⟩
  | cons h tail ih =>
    constructor
    · rw [List.cons_append, settled, h.scanBuffer_eq]
      show _ :: settled _ = _
      rw [ih.1, List.cons_append]
    · rw [List.cons_append, afterStop, h.scanBuffer_eq]
      exact ih.2

theorem Clean.stopsAt {bufs : List (α × Bytes)} {ps : List Bytes} (h : Clean bufs ps)
    (rest : List (α × Bytes)) : Wal.stopsAt (bufs ++ rest) = Wal.stopsAt rest := by
  induction h with
  | nil => rfl
  | cons h tail ih =>
    rw [List.cons_append, Wal.stopsAt, h.scanBuffer_eq]
    exact ih

theorem stopsAt_stop {t : α} {buf : Bytes} {qs : List Bytes} {stop : Nat} {r : StopReason}
    (h : Scan buf 0 qs stop r) (hr : r ≠ .clean) (post : List (α × Bytes)) :
    stopsAt ((t, buf) :: post) = some t := by
  rw [stopsAt, h.scanBuffer_eq]
  cases r with
  | clean => exact absurd rfl hr
  | _ => rfl

theorem settled_eq_nil {bufs : List (α × Bytes)} (h : settled bufs = []) : bufs = [] := by
  cases bufs with
  | nil => rfl
  | cons s bufs =>
    rw [settled] at h
    split at h <;> cases h

/-- The same segments are there. -/
theorem settled_fst : ∀ bufs : List (α × Bytes),
    (settled bufs).map Prod.fst = bufs.map Prod.fst := by
  intro bufs
  induction bufs with
  | nil => rfl
  | cons s bufs ih =>
    rw [settled]
    split
    · rw [List.map_cons, List.map_cons, ih]
    · rfl

theorem settled_stop {t : α} {buf : Bytes} {qs : List Bytes} {stop : Nat} {r : StopReason}
    (h : Scan buf 0 qs stop r) (hr : r ≠ .clean) (post : List (α × Bytes)) :
    settled ((t, buf) :: post) = (t, buf.take stop) :: post ∧
      afterStop ((t, buf) :: post) = post := by
  constructor
  · rw [settled, h.scanBuffer_eq]
    cases r with
    | clean => exact absurd rfl hr
    | _ => rfl
  · rw [afterStop, h.scanBuffer_eq]
    cases r with
    | clean => exact absurd rfl hr
    | _ => rfl

theorem Clean.afterStop {bufs : List (α × Bytes)} {ps : List Bytes} (h : Clean bufs ps) :
    afterStop bufs = [] := by
  have := (settled_clean h []).2
  rwa [List.append_nil] at this

theorem Clean.records {bufs : List (SegName × Bytes)} {ps : List Bytes} (h : Clean bufs ps) :
    (Wal.replay (byId bufs) .default).records = ps := by
  obtain ⟨r', h1, _, h3⟩ := h.replay [] .default
  rw [List.append_nil] at h3
  rw [h3]
  exact h1

/-- **What `open` reads fills the segments it leaves**, but for those behind the
stop. -/
theorem settled_spec (bufs : List (SegName × Bytes)) :
    ∃ ps, (replay (byId bufs) .default).records = ps ∧
      size (settled bufs) = (frames ps).length + size (afterStop bufs) ∧
      ((∀ s ∈ afterStop bufs, s.2 = []) → Clean (settled bufs) ps) := by
  rcases clean_or_stops bufs with ⟨ps, h⟩ | ⟨pre, t, buf, post, ps, qs, stop, r, rfl, h, hs, hr⟩
  · obtain ⟨r', h1, _, h3⟩ := h.replay [] .default
    obtain ⟨h4, h5⟩ := settled_clean h []
    rw [List.append_nil] at h3 h4 h5
    refine ⟨ps, by rw [h3]; exact h1, ?_, fun _ => ?_⟩
    · rw [h4, h5]
      show size (bufs ++ []) = _ + 0
      rw [List.append_nil]
      exact h.size_eq.1
    · rw [h4]
      show Clean (bufs ++ []) ps
      rwa [List.append_nil]
  · obtain ⟨r', h1, _, h3⟩ := h.replay ((t, buf) :: post) .default
    obtain ⟨h4, h5⟩ := settled_clean h ((t, buf) :: post)
    obtain ⟨h6, h7⟩ := settled_stop hs hr (t := t) post
    obtain ⟨hfits, hstop, hle, _⟩ := hs.stop_eq
    have hcut : Scan (buf.take stop) 0 qs stop .clean := by
      have hlen : (buf.take stop).length = stop := List.length_take_of_le (hle (Nat.zero_le _))
      have hd : Scan (buf.take stop ++ []) stop [] stop .clean := by
        rw [List.append_nil]
        exact .done hlen.symm
      have := hs.extend hd
      rwa [List.append_nil, List.append_nil] at this
    refine ⟨ps ++ qs, ?_, ?_, fun hpost => ?_⟩
    · rw [h3, byId, List.map_cons, replay_cons hs, if_pos hr, h1]
      rfl
    · rw [h4, h5, h6, h7, size_append, size_cons, h.size_eq.1, frames_append, List.length_append]
      show _ + ((buf.take stop).length + _) = _
      rw [List.length_take_of_le (hle (Nat.zero_le _))]
      omega
    · rw [h5, h7] at hpost
      rw [h4, h6]
      have htail : Clean ((t, buf.take stop) :: post) (qs ++ []) :=
        .cons hcut (Clean.of_empty hpost)
      rw [List.append_nil] at htail
      exact h.append htail

end Reading

end AccretionDb.Wal
