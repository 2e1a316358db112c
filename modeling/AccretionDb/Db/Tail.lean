import AccretionDb.Db.Open

/-! # What lies behind the records of the log

The log of a database ends with records and then any bytes.  Opening finds the records
again, and is stopped only by a payload that the scan of these bytes yields and that is
not a record (`open_damaged_tail_iff`); eight bytes of zero are such a payload, as the
CRC-32 of no bytes is zero (`zero_fill_stops_open`).
-/

namespace AccretionDb

open CrashLogic

/-- A write as the log has it. -/
structure Logged where
  seq : Nat
  key : Bytes
  kind : ValueKind

namespace Logged

def encode (w : Logged) : Bytes := encodeRecord w.seq w.key w.kind

def record (w : Logged) : Record := .of w.seq w.key w.kind

def version (w : Logged) : InternalValue := ⟨w.seq, w.kind⟩

/-- The sequence number is a word, and the record fits a frame. -/
structure Fits (w : Logged) : Prop where
  seq : w.seq < 2 ^ 64
  length : w.encode.length < 2 ^ 32

theorem map_decodeRecord {ws : List Logged} (h : ∀ w ∈ ws, w.Fits) :
    (ws.map encode).map decodeRecord = (ws.map record).map Except.ok := by
  rw [List.map_map, List.map_map]
  exact List.map_congr_left fun w hw => decodeRecord_encodeRecord (h w hw).seq (h w hw).length

theorem fits_encode {ws : List Logged} (h : ∀ w ∈ ws, w.Fits) : Wal.Fits (ws.map encode) := by
  intro p hp
  obtain ⟨w, hw, rfl⟩ := List.mem_map.mp hp
  exact (h w hw).length

end Logged

namespace Db

/-- The contents have the write, or a later one of its key. -/
def Includes (db : Db) (ws : List Logged) (w : Logged) : Prop :=
  ∃ v, db.memtables.get w.key = some v ∧
    (w.seq < v.seq ∨ ∃ w' ∈ ws, w'.key = w.key ∧ w'.seq = w.seq ∧ v = w'.version)

theorem includes_of_replay {db : Db} {ws : List Logged} {rs : List Record} {s : MemtableSet}
    (hfresh : s.active = .new) (hactive : db.memtables.active = ((ws.map Logged.record ++ rs).map
      Record.entry).foldl (fun t e => t.insertIfNewer e.1 e.2) s.active) {w : Logged}
    (hw : w ∈ ws) : Includes db ws w := by
  rw [List.map_append, List.foldl_append, hfresh, List.map_map] at hactive
  have hmem : (w.key, w.version) ∈ ws.map (Record.entry ∘ Logged.record) :=
    List.mem_map.mpr ⟨w, hw, rfl⟩
  obtain ⟨u, hu, hle⟩ := Memtable.exists_foldl (t := .new) hmem
  obtain ⟨v, hv, hold⟩ := Memtable.older_foldl (rs.map Record.entry) hu
  rw [← hactive] at hv
  have hget : db.memtables.get w.key = some v := by
    have hget' : db.memtables.active.get w.key = some v := hv
    rw [MemtableSet.get, hget']
  refine ⟨v, hget, ?_⟩
  rcases Nat.lt_or_eq_of_le hle with hlt | heq
  · exact Or.inl (Nat.lt_of_lt_of_le hlt hold.stamp_le)
  · rcases hold with hlt | rfl
    · exact Or.inl (Nat.lt_of_le_of_lt hle hlt)
    · rcases Memtable.of_foldl hu with hnew | hin
      · cases hnew
      · obtain ⟨w', hw', he⟩ := List.mem_map.mp hin
        obtain ⟨hkey, rfl⟩ := Prod.mk.inj he
        exact Or.inr ⟨w', hw', hkey, heq.symm, rfl⟩

section Programs

variable [TableHashing]

/-- Opening returns a database whose contents include the writes. -/
def OpensWith (self : Config) (fs : SimFs) (ws : List Logged) : Prop :=
  ∃ db fs', fs.exec (openOn self) () = some (.ok db, fs', ()) ∧ ∀ w ∈ ws, Includes db ws w

/-- The records that opening replays. -/
theorem replay_tail {pre : List (Wal.SegName × Bytes)} {earlier ws : List Logged}
    (a : Wal.SegName) (junk : Bytes) (hpre : Wal.Clean pre (earlier.map Logged.encode))
    (hfits : ∀ w ∈ earlier ++ ws, w.Fits) :
    (Wal.replay (Wal.byId (pre ++ [(a, Wal.frames (ws.map Logged.encode) ++ junk)]))
        .default).records =
      (earlier ++ ws).map Logged.encode ++ (Wal.scanBuffer junk []).1 := by
  obtain ⟨qs, stop, r, hscan⟩ := Wal.Scan.exists_scan junk
  have hfound : (Wal.scanBuffer junk []).1 = qs := by rw [hscan.scanBuffer_eq]; rfl
  have hws : ∀ w ∈ ws, w.Fits := fun w hw => hfits w (List.mem_append_right _ hw)
  have hall := Wal.Scan.of_frames_behind (Logged.fits_encode hws) hscan
  obtain ⟨r', h1, _, h3⟩ := hpre.replay [(a, Wal.frames (ws.map Logged.encode) ++ junk)] .default
  have hone : (Wal.replay (Wal.byId [(a, Wal.frames (ws.map Logged.encode) ++ junk)]) r').records =
      r'.records ++ (ws.map Logged.encode ++ qs) := by
    rw [Wal.byId, List.map_singleton, Wal.replay_cons hall]
    split <;> rfl
  rw [hfound, h3, hone, h1, List.map_append]
  simp only [List.append_assoc, Wal.Recovered.default, List.nil_append]

/-- Opening returns only if all that the log yields are records. -/
theorem OpensWith.isRecord {self : Config} {fs : SimFs} {v : Version} {ws : List Logged}
    (h : OpensWith self fs ws) (ht : fs.Tidy) (hm : Loads self.dir fs.disk v) :
    ∀ p ∈ (Wal.replay (Wal.byId (Wal.segments fs self.dir)) .default).records, IsRecord p := by
  obtain ⟨db, fs', hopen, -⟩ := h
  have hb := Wal.buffers_segments ht self.dir
  obtain ⟨_, _, wal, x, -, hreplay, -⟩ := SimFs.exec_spec ht (wpE_openOn (H := False) hm hb) hopen
  exact isRecord_of_replayRecords hreplay

/-- **What a damaged tail does to the opening.**  The writes are all there exactly if
every payload that the scan finds behind them is a record. -/
theorem open_damaged_tail_iff {self : Config} {fs : SimFs} {v : Version}
    {pre : List (Wal.SegName × Bytes)} {earlier ws : List Logged} {a : Nat} {junk : Bytes}
    (ht : fs.Tidy) (hm : Loads self.dir fs.disk v) (hpre : Wal.Clean pre (earlier.map Logged.encode))
    (hlast : Wal.segments fs self.dir =
      pre ++ [(.plain a, Wal.frames (ws.map Logged.encode) ++ junk)])
    (hfits : ∀ w ∈ earlier ++ ws, w.Fits) :
    OpensWith self fs (earlier ++ ws) ↔ ∀ p ∈ (Wal.scanBuffer junk []).1, IsRecord p := by
  have hrecords := replay_tail (.plain a) junk hpre hfits
  rw [← hlast] at hrecords
  constructor
  · intro h p hp
    refine h.isRecord ht hm p ?_
    rw [hrecords]
    exact List.mem_append_right _ hp
  · intro h
    obtain ⟨rs, hrs⟩ := exists_records h
    have hdecode : ((earlier ++ ws).map Logged.encode ++ (Wal.scanBuffer junk []).1).map
        decodeRecord = ((earlier ++ ws).map Logged.record ++ rs).map Except.ok := by
      rw [List.map_append, Logged.map_decodeRecord hfits, hrs, ← List.map_append]
    have hspec := wpE_openOn (m := ()) (H := False) hm (Wal.buffers_segments ht self.dir)
    obtain ⟨res, fs', _, hopen⟩ := SimFs.exec_total ht hspec
    obtain ⟨_, _, hpost⟩ := SimFs.exec_spec ht hspec hopen
    rw [hrecords, replayRecords_eq _ _ hdecode] at hpost
    cases res with
    | error err => cases hpost (hlast ▸ hpre.adoptable a _)
    | ok db =>
      obtain ⟨wal, x, -, hx, rfl, -⟩ := hpost
      obtain rfl := Except.ok.inj hx
      exact ⟨_, fs', hopen, fun w hw => includes_of_replay rfl rfl hw⟩

end Programs

/-! ### Two directories with a log -/

/-- A directory with this manifest and these segments. -/
def directory [Hashing] (dir : Dir) (v : Version) (segs : List (Nat × Bytes)) : SimFs :=
  segs.foldl (fun s x => s.place (Wal.segmentPath dir x.1) x.2)
    ((SimFs.new fun _ => 0).place (manifestPath dir) (encodeVersion v))

theorem directory_tidy [Hashing] (dir : Dir) (v : Version) (segs : List (Nat × Bytes)) :
    (directory dir v segs).Tidy := by
  have hall : ∀ (segs : List (Nat × Bytes)) {s : SimFs}, s.Tidy →
      (segs.foldl (fun s x => s.place (Wal.segmentPath dir x.1) x.2) s).Tidy := by
    intro segs
    induction segs with
    | nil => exact fun hs => hs
    | cons x segs ih => exact fun hs => ih (SimFs.place_tidy hs ..)
  exact hall segs (SimFs.place_tidy (SimFs.new_tidy _) ..)

theorem loads_of_contents [Hashing] {dir : Dir} {s : SimFs} (hs : s.Tidy) {c : Bytes} {v : Version}
    (h : s.contents (manifestPath dir) = some c) (hv : decodeVersion c = .ok v) :
    Loads dir s.disk v := by
  obtain ⟨b, hb, rfl⟩ := hs.exists_blob h
  exact Or.inl ⟨b, hb, hv⟩

theorem fits_iff (ws : List Logged) :
    (∀ w ∈ ws, w.Fits) ↔ ∀ w ∈ ws, w.seq < 2 ^ 64 ∧ w.encode.length < 2 ^ 32 :=
  forall₂_congr fun _ _ => ⟨fun h => ⟨h.seq, h.length⟩, fun h => ⟨h.1, h.2⟩⟩

/-- Two puts, in the first segment. -/
def twoPuts : List Logged := [⟨1, [1], .value [10]⟩, ⟨2, [2], .value [20]⟩]

/-- A put and a deletion, in the last one. -/
def putAndDelete : List Logged := [⟨3, [3], .value [30, 31]⟩, ⟨4, [1], .tombstone⟩]

/-- A record that nobody wrote. -/
def stranger : Logged := ⟨9, [2], .value []⟩

/-- Behind the records there are the stranger's frame and a part of another one. -/
def strangeTail [Hashing] : Bytes := Wal.encode stranger.encode ++ (Wal.encode [7, 7]).take 9

/-- The manifest, and a log with such a tail. -/
def tornLog [Hashing] : SimFs :=
  directory demoConfig.dir ⟨[], 1, 4⟩ [(1, Wal.frames (twoPuts.map Logged.encode)),
    (2, Wal.frames (putAndDelete.map Logged.encode) ++ strangeTail)]

/-- The part of a frame is cut off, and the stranger is let in. -/
theorem open_damaged_tail_demo : letI := TableHashing.emptyKey
    OpensWith demoConfig tornLog (twoPuts ++ putAndDelete) := by
  let _ := TableHashing.emptyKey
  have ht : tornLog.Tidy := directory_tidy ..
  have hm : Loads demoConfig.dir tornLog.disk ⟨[], 1, 4⟩ := by
    have hc : tornLog.contents (manifestPath demoConfig.dir) = some (encodeVersion ⟨[], 1, 4⟩) := by
      decide +kernel
    refine loads_of_contents ht hc (decodeVersion_encodeVersion ?_ ?_)
    · exact ⟨by decide, by decide, nofun⟩
    · exact ⟨by decide, nofun, nofun⟩
  have hsegs : Wal.segments tornLog demoConfig.dir =
      [(.plain 1, Wal.frames (twoPuts.map Logged.encode))] ++
        [(.plain 2, Wal.frames (putAndDelete.map Logged.encode) ++ strangeTail)] := by decide +kernel
  have hfits : ∀ w ∈ twoPuts ++ putAndDelete, w.Fits := (fits_iff _).mpr (by decide)
  have hpre : Wal.Clean [(Wal.SegName.plain 1, Wal.frames (twoPuts.map Logged.encode))]
      (twoPuts.map Logged.encode) := by
    have hfit := Logged.fits_encode fun w hw => hfits w (List.mem_append_left _ hw)
    have hclean : Wal.Clean [(Wal.SegName.plain 1, Wal.frames (twoPuts.map Logged.encode))]
        (twoPuts.map Logged.encode ++ []) := .cons (.of_frames_clean hfit) .nil
    rwa [List.append_nil] at hclean
  refine (open_damaged_tail_iff ht hm hpre hsegs hfits).mpr fun p hp => ?_
  have hscan : (Wal.scanBuffer strangeTail []).1 = [stranger.encode] := by decide +kernel
  rw [hscan] at hp
  rw [List.mem_singleton.mp hp]
  exact ⟨_, decodeRecord_encodeRecord (by decide) (by decide)⟩

/-- Two records, and zeros behind them. -/
def zeroFilled [Hashing] : SimFs :=
  directory demoConfig.dir .empty
    [(1, Wal.frames (putAndDelete.map Logged.encode) ++ List.replicate 8 0)]

/-- **Zeros behind the last record stop the database from opening.** -/
theorem zero_fill_stops_open : letI := TableHashing.emptyKey
    ∃ fs : SimFs, fs.Tidy ∧ Loads demoConfig.dir fs.disk .empty ∧
      Wal.segments fs demoConfig.dir =
        [(.plain 1, Wal.frames (putAndDelete.map Logged.encode) ++ List.replicate 8 0)] ∧
      ¬ OpensWith demoConfig fs putAndDelete := by
  let _ := TableHashing.emptyKey
  have ht : zeroFilled.Tidy := directory_tidy ..
  have hm : Loads demoConfig.dir zeroFilled.disk .empty := by
    have hc : zeroFilled.contents (manifestPath demoConfig.dir) = some (encodeVersion .empty) := by
      decide +kernel
    exact loads_of_contents ht hc
      (decodeVersion_encodeVersion Version.words_empty Version.lengthsFit_empty)
  have hsegs : Wal.segments zeroFilled demoConfig.dir =
      [(.plain 1, Wal.frames (putAndDelete.map Logged.encode) ++ List.replicate 8 0)] := by
    decide +kernel
  refine ⟨zeroFilled, ht, hm, hsegs, fun h => ?_⟩
  have hscan : (Wal.scanBuffer (List.replicate 8 0) []).1 = [[]] := by decide
  have hrecords := @replay_tail _ [] [] putAndDelete (.plain 1) (List.replicate 8 0) .nil
    ((fits_iff _).mpr (by decide))
  rw [hscan] at hrecords
  obtain ⟨r, hr⟩ := h.isRecord ht hm [] (by
    rw [hsegs]
    exact hrecords ▸ List.mem_append_right _ List.mem_cons_self)
  cases hr

end Db

end AccretionDb
