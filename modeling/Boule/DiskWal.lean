import Boule.Basic
import Boule.Lib.Rows
import Boule.Lib.Run

/-! The write-ahead log on disk beside the one in memory. Log sequence numbers are `u64`s; `none`
stands for an overflow. A transaction of the database is atomic and durable, so the disk holds what
the last one that was committed left. -/
namespace Boule
open Rows

/-- An entry under its log sequence number. -/
abbrev WalRow := ℕ × Bytes

/-- The first eight bytes of a SHA-256 digest. -/
structure WalChecksum where
  digest : Bytes → Bytes
  length_digest : ∀ payload, (digest payload).length = 8

/-! ### In memory -/

structure MemoryWal where
  nextLsn : ℕ
  entries : List WalRow
  deriving DecidableEq

namespace MemoryWal

def new : MemoryWal := ⟨0, []⟩

def append (w : MemoryWal) (entry : Bytes) : Option (MemoryWal × ℕ) := do
  let lsn ← checkedAddU64 w.nextLsn 1
  return (⟨lsn, w.entries ++ [(lsn, entry)]⟩, lsn)

/-- `partition_point` of the entries below a number. -/
def below (w : MemoryWal) (lsn : ℕ) : ℕ := (w.entries.takeWhile fun e => e.1 < lsn).length

def iterFrom (w : MemoryWal) (lsn : ℕ) : List WalRow := w.entries.drop (w.below lsn)

def truncateBefore (w : MemoryWal) (lsn : ℕ) : MemoryWal :=
  { w with entries := w.entries.drop (w.below lsn) }

end MemoryWal

/-! ### On disk -/

/-- The tables of the database: entries with their checksums, and the meta table's number. -/
structure WalDb where
  entries : Table ℕ Bytes
  nextLsn : Option ℕ
  deriving DecidableEq

structure DiskWal where
  db : WalDb
  nextLsn : ℕ
  buffer : List WalRow
  deriving DecidableEq

/-- The number that `open` goes on with. -/
def WalDb.resumeLsn (db : WalDb) : ℕ :=
  match db.nextLsn with
  | some n => n
  | none =>
    match db.entries.keys.max? with
    | some k => min (k + 1) (2 ^ 64 - 1)
    | none => 1

namespace DiskWal

/-- `open` on a path where the database is in this state. -/
def openAt (db : WalDb) : DiskWal := ⟨db, db.resumeLsn, []⟩

def append (w : DiskWal) (entry : Bytes) : Option (DiskWal × ℕ) := do
  let next ← checkedAddU64 w.nextLsn 1
  return (⟨w.db, next, w.buffer ++ [(w.nextLsn, entry)]⟩, w.nextLsn)

section
variable (C : WalChecksum)

/-- What `flush` inserts for an entry. -/
def sealRow (e : WalRow) : WalRow := (e.1, C.digest e.2 ++ e.2)

def flush (w : DiskWal) : DiskWal :=
  if w.buffer.isEmpty then w
  else
    { w with
      db.entries :=
        w.buffer.foldl (fun t e => t.insert (sealRow C e).1 (sealRow C e).2) w.db.entries
      db.nextLsn := some w.nextLsn
      buffer := w.buffer.filter fun e => w.nextLsn ≤ e.1 }

/-- A row that is too short or does not match its checksum is an error. -/
def readRow (row : WalRow) : Option WalRow :=
  if row.2.length < 8 then none
  else if row.2.take 8 ≠ C.digest (row.2.drop 8) then none
  else some (row.1, row.2.drop 8)

def iterFrom (w : DiskWal) (lsn : ℕ) : Option (List WalRow) := do
  let rows := (w.db.entries.toList.filter fun e => lsn ≤ e.1).insertionSort fun a b => a.1 ≤ b.1
  let stored ← rows.mapM (readRow C)
  let out := stored ++ w.buffer.filter fun e => lsn ≤ e.1
  return (out.insertionSort fun a b => a.1 ≤ b.1).destutter fun a b => a.1 ≠ b.1

end

def truncateBefore (w : DiskWal) (lsn : ℕ) : DiskWal :=
  if lsn = 0 then w
  else
    { w with
      db.entries := w.db.entries.retain fun k _ => lsn ≤ k
      buffer := w.buffer.filter fun e => lsn ≤ e.1 }

end DiskWal

/-! ### Calls -/

inductive WalCall where
  | append (entry : Bytes)
  | flush
  | iterFrom (lsn : ℕ)
  | truncateBefore (lsn : ℕ)
  deriving DecidableEq

inductive WalResult where
  | lsn (n : ℕ)
  | done
  | entries (rows : List WalRow)
  | failed
  deriving DecidableEq

def MemoryWal.call (w : MemoryWal) : WalCall → Option (MemoryWal × WalResult)
  | .append entry => (w.append entry).map fun r => (r.1, .lsn r.2)
  | .flush => some (w, .done)
  | .iterFrom lsn => some (w, .entries (w.iterFrom lsn))
  | .truncateBefore lsn => some (w.truncateBefore lsn, .done)

def DiskWal.call (C : WalChecksum) (w : DiskWal) : WalCall → Option (DiskWal × WalResult)
  | .append entry => (w.append entry).map fun r => (r.1, .lsn r.2)
  | .flush => some (w.flush C, .done)
  | .iterFrom lsn => some (w, ((w.iterFrom C lsn).map WalResult.entries).getD .failed)
  | .truncateBefore lsn => some (w.truncateBefore lsn, .done)

/-- What the calls and their results say of the entries: those that a flush covered and those that
none did yet, without what was truncated, and the numbers that the open log had handed out when it
was flushed, and those that it has since. -/
structure WalHistory where
  kept : List WalRow
  unflushed : List WalRow
  covered : List ℕ
  handedOut : List ℕ
  deriving DecidableEq

namespace WalHistory

def start : WalHistory := ⟨[], [], [], []⟩

def record (h : WalHistory) : WalCall → WalResult → WalHistory
  | .append entry, .lsn n =>
    { h with unflushed := h.unflushed ++ [(n, entry)], handedOut := h.handedOut ++ [n] }
  | .flush, .done =>
    { h with
      kept := h.kept ++ h.unflushed
      unflushed := []
      covered := h.covered ++ h.handedOut
      handedOut := [] }
  | .truncateBefore lsn, .done =>
    { h with
      kept := h.kept.filter fun e => lsn ≤ e.1
      unflushed := h.unflushed.filter fun e => lsn ≤ e.1 }
  | _, _ => h

/-- What was not flushed is lost. -/
def reopen (h : WalHistory) : WalHistory := { h with unflushed := [], handedOut := [] }

end WalHistory

inductive WalInput where
  | call (c : WalCall)
  | reopen
  deriving DecidableEq

/-- Both logs under the same calls, and their results as long as the database was not reopened. -/
structure WalRun where
  disk : Option DiskWal
  memory : Option MemoryWal
  reopened : Bool
  diskResults : List WalResult
  memoryResults : List WalResult
  history : WalHistory

namespace WalRun

def start : WalRun :=
  ⟨some (.openAt ⟨∅, none⟩), some .new, false, [], [], .start⟩

variable (C : WalChecksum)

def step (s : WalRun) : WalInput → WalRun
  | .call c =>
    let disk := s.disk.bind fun w => w.call C c
    let memory := s.memory.bind fun w => w.call c
    { s with
      disk := disk.map Prod.fst
      memory := memory.map Prod.fst
      diskResults := s.diskResults ++ (disk.map Prod.snd).toList
      memoryResults := s.memoryResults ++ (memory.map Prod.snd).toList
      history := disk.elim s.history fun r => s.history.record c r.2 }
  | .reopen =>
    { s with
      disk := s.disk.map fun w => .openAt w.db
      reopened := true
      history := s.history.reopen }

/-- The results are those of the log in memory; opened now, the database returns what was flushed
and not truncated; and neither the open log nor one opened now hands out a number that was handed
out before a flush. -/
structure Faithful (s : WalRun) : Prop where
  same : s.reopened = false → s.diskResults = s.memoryResults
  running : ∃ w, s.disk = some w ∧
    (∀ lsn, (DiskWal.openAt w.db).iterFrom C lsn =
      some (s.history.kept.filter fun e => lsn ≤ e.1)) ∧
    ∀ n ∈ s.history.covered, n ≠ w.nextLsn ∧ n ≠ (DiskWal.openAt w.db).nextLsn

/-- There is another number, and a flush that writes nothing has nothing to remember. -/
def Safe (s : WalRun) : WalInput → Prop
  | .call (.append _) => ∀ w ∈ s.disk, w.nextLsn + 1 < 2 ^ 64
  | .call .flush => ∀ w ∈ s.disk, w.buffer = [] → w.nextLsn = w.db.resumeLsn
  | _ => True

end WalRun

/-! ### What the tables hold -/

/-- The disk holds the entries that were flushed, the buffer the others, and the numbers that the
open log has handed out go from the one on disk to its next. -/
structure Tracked (C : WalChecksum) (w : DiskWal) (h : WalHistory) : Prop where
  buffer : w.buffer = h.unflushed
  stored : ∀ n raw, w.db.entries.get? n = some raw ↔ (n, raw) ∈ h.kept.map (DiskWal.sealRow C)
  increasing : Increasing (h.kept ++ h.unflushed)
  kept_lt : ∀ e ∈ h.kept, e.1 < w.db.resumeLsn
  resume_le : w.db.resumeLsn ≤ w.nextLsn
  unflushed_mem : ∀ e ∈ h.unflushed, w.db.resumeLsn ≤ e.1 ∧ e.1 < w.nextLsn
  handedOut : ∀ n, n ∈ h.handedOut ↔ w.db.resumeLsn ≤ n ∧ n < w.nextLsn
  covered_lt : ∀ n ∈ h.covered, n < w.db.resumeLsn
  kept_nil : w.db.nextLsn = none → h.kept = []

section
variable {C : WalChecksum} {w : DiskWal} {h : WalHistory}

theorem resumeLsn_of_empty {db : WalDb} (hentries : ∀ n, db.entries.get? n = none)
    (hnext : db.nextLsn = none) : db.resumeLsn = 1 := by
  have hkeys : db.entries.keys = [] := by
    apply List.eq_nil_iff_forall_not_mem.mpr
    intro n hn
    have hcontains := Table.mem_keys_iff.mp hn
    rw [Table.containsKey, hentries] at hcontains
    cases hcontains
  unfold WalDb.resumeLsn
  rw [hnext, hkeys]
  rfl

theorem readRow_sealRow (e : WalRow) : DiskWal.readRow C (DiskWal.sealRow C e) = some e := by
  have hlen := C.length_digest e.2
  have hshort : ¬ (C.digest e.2 ++ e.2).length < 8 := by
    rw [List.length_append]
    omega
  have htake : (C.digest e.2 ++ e.2).take 8 = C.digest e.2 := by rw [← hlen, List.take_left]
  have hdrop : (C.digest e.2 ++ e.2).drop 8 = e.2 := by rw [← hlen, List.drop_left]
  unfold DiskWal.readRow DiskWal.sealRow
  simp only
  rw [if_neg hshort, htake, hdrop, if_neg fun hne => hne rfl]

theorem mapM_readRow (rows : List WalRow) :
    (rows.map (DiskWal.sealRow C)).mapM (DiskWal.readRow C) = some rows := by
  induction rows with
  | nil => rfl
  | cons e rows ih =>
    rw [List.map_cons, List.mapM_cons, readRow_sealRow, ih]
    rfl

theorem filter_sealed (C : WalChecksum) (rows : List WalRow) (lsn : ℕ) :
    (rows.map (DiskWal.sealRow C)).filter (fun e => lsn ≤ e.1) =
      (rows.filter fun e => lsn ≤ e.1).map (DiskWal.sealRow C) :=
  List.filter_map

theorem Tracked.increasing_sealed (ht : Tracked C w h) :
    Increasing (h.kept.map (DiskWal.sealRow C)) :=
  List.pairwise_map.mpr (increasing_append.mp ht.increasing).1

/-- An iteration gives the entries of both places. -/
theorem Tracked.iterFrom (ht : Tracked C w h) (lsn : ℕ) :
    w.iterFrom C lsn = some ((h.kept ++ h.unflushed).filter fun e => lsn ≤ e.1) := by
  have hscan := ht.increasing_sealed.scan_eq (fun n raw => (ht.stored n raw).symm)
    fun e => decide (lsn ≤ e.1)
  have hsealed := filter_sealed C h.kept lsn
  have hout := ht.increasing.filter fun e => decide (lsn ≤ e.1)
  unfold DiskWal.iterFrom
  simp only
  rw [hscan, hsealed, mapM_readRow, Option.bind_eq_bind, Option.bind_some, ht.buffer,
    ← List.filter_append, hout.insertionSort_eq, hout.destutter_eq]
  rfl

theorem Tracked.reopen (ht : Tracked C w h) : Tracked C (.openAt w.db) h.reopen := by
  refine ⟨rfl, ht.stored, ?_, ht.kept_lt, Nat.le_refl _, fun e he => (by cases he), fun n => ?_,
    ht.covered_lt, ht.kept_nil⟩
  · unfold WalHistory.reopen
    simp only
    rw [List.append_nil]
    exact (increasing_append.mp ht.increasing).1
  · refine iff_of_false (fun hn => by cases hn) fun hn => ?_
    have hopen : (DiskWal.openAt w.db).nextLsn = (DiskWal.openAt w.db).db.resumeLsn := rfl
    omega

theorem Tracked.append (ht : Tracked C w h) (entry : Bytes) (next : ℕ)
    (hnext : next = w.nextLsn + 1) :
    Tracked C ⟨w.db, next, w.buffer ++ [(w.nextLsn, entry)]⟩
      (h.record (.append entry) (.lsn w.nextLsn)) := by
  have hresume := ht.resume_le
  refine ⟨?_, ht.stored, ?_, ht.kept_lt, ?_, fun e he => ?_, fun n => ?_, ht.covered_lt,
    ht.kept_nil⟩
  · unfold WalHistory.record
    simp only
    rw [ht.buffer]
  · unfold WalHistory.record
    simp only
    rw [← List.append_assoc]
    refine increasing_append.mpr ⟨ht.increasing, List.pairwise_singleton _ _, ?_⟩
    intro a ha b hb
    obtain rfl := List.mem_singleton.mp hb
    rcases List.mem_append.mp ha with ha | ha
    · have hlt := ht.kept_lt a ha
      simp only
      omega
    · exact (ht.unflushed_mem a ha).2
  · simp only
    omega
  · rcases List.mem_append.mp he with he | he
    · have hbounds := ht.unflushed_mem e he
      simp only
      omega
    · obtain rfl := List.mem_singleton.mp he
      simp only
      omega
  · have hold := ht.handedOut n
    unfold WalHistory.record
    simp only
    rw [List.mem_append, List.mem_singleton, hold]
    omega

/-- A flush writes the rows of the buffer, and remembers the next number. -/
theorem flush_eq (w : DiskWal) (hbuffer : w.buffer ≠ []) : w.flush C =
    ⟨⟨(w.buffer.map (DiskWal.sealRow C)).foldl (fun t e => t.insert e.1 e.2) w.db.entries,
      some w.nextLsn⟩, w.nextLsn, w.buffer.filter fun e => w.nextLsn ≤ e.1⟩ := by
  have hempty : ¬ w.buffer.isEmpty = true := by simpa using hbuffer
  rw [DiskWal.flush, if_neg hempty, List.foldl_map]

/-- After the flush the rows on disk are those of all entries. -/
theorem Tracked.stored_flush (ht : Tracked C w h) (n : ℕ) (raw : Bytes) :
    Table.get? ((h.unflushed.map (DiskWal.sealRow C)).foldl (fun t e => t.insert e.1 e.2)
        w.db.entries) n = some raw ↔
      (n, raw) ∈ (h.kept ++ h.unflushed).map (DiskWal.sealRow C) := by
  obtain ⟨-, hunflushed, hbetween⟩ := increasing_append.mp ht.increasing
  have hnodup : ((h.unflushed.map (DiskWal.sealRow C)).map Prod.fst).Nodup := by
    rw [List.map_map]
    exact List.pairwise_map.mpr (List.Pairwise.imp Nat.ne_of_lt hunflushed)
  have hnew : ∀ e ∈ h.unflushed.map (DiskWal.sealRow C), Table.get?
      ((h.unflushed.map (DiskWal.sealRow C)).foldl (fun t e => t.insert e.1 e.2) w.db.entries)
      e.1 = some e.2 := fun e he => Table.get?_foldl_of_mem (r := fun _ raw => some raw)
    (fun t e k => t.get?_insert e.1 k e.2) w.db.entries hnodup he
  have hold : ∀ n, n ∉ (h.unflushed.map (DiskWal.sealRow C)).map Prod.fst → Table.get?
      ((h.unflushed.map (DiskWal.sealRow C)).foldl (fun t e => t.insert e.1 e.2) w.db.entries)
      n = w.db.entries.get? n := fun n hn => Table.get?_foldl_of_notMem
    (r := fun _ raw => some raw) (fun t e k => t.get?_insert e.1 k e.2) w.db.entries hn
  rw [List.map_append, List.mem_append, ← ht.stored]
  by_cases hmem : n ∈ (h.unflushed.map (DiskWal.sealRow C)).map Prod.fst
  · obtain ⟨e, he, hen⟩ := List.mem_map.mp hmem
    have hget := hnew e he
    rw [hen] at hget
    rw [hget]
    constructor
    · intro hraw
      refine Or.inr ?_
      rwa [← hen, ← Option.some.inj hraw]
    · rintro (hstored | hwritten)
      · obtain ⟨a, ha, hsealed⟩ := List.mem_map.mp ((ht.stored n raw).mp hstored)
        obtain ⟨b, hb, hbe⟩ := List.mem_map.mp he
        have hlt := hbetween a ha b hb
        have han : a.1 = n := congrArg Prod.fst hsealed
        have hbn : b.1 = n := (congrArg Prod.fst hbe).trans hen
        omega
      · exact hget.symm.trans (hnew (n, raw) hwritten)
  · rw [hold n hmem]
    constructor
    · exact Or.inl
    · rintro (hstored | hwritten)
      · exact hstored
      · exact absurd (List.mem_map.mpr ⟨(n, raw), hwritten, rfl⟩) hmem

/-- A flush that writes leaves everything on disk. -/
theorem Tracked.flush (ht : Tracked C w h) (hbuffer : w.buffer ≠ []) :
    Tracked C (w.flush C) (h.record .flush .done) := by
  have hflush := flush_eq (C := C) w hbuffer
  have hresume : (w.flush C).db.resumeLsn = w.nextLsn := by rw [hflush, WalDb.resumeLsn]
  have hsame : (w.flush C).nextLsn = w.nextLsn := by rw [hflush]
  refine ⟨?_, fun n raw => ?_, ?_, fun e he => ?_, ?_, fun e he => (by cases he), fun n => ?_,
    fun n hn => ?_, fun hnone => ?_⟩
  · have hnil : (w.buffer.filter fun e => w.nextLsn ≤ e.1) = [] := by
      rw [List.filter_eq_nil_iff, ht.buffer]
      intro e he
      have hlt := (ht.unflushed_mem e he).2
      simp only [decide_eq_true_eq]
      omega
    rw [hflush, hnil]
    rfl
  · have hrecord : (h.record .flush .done).kept = h.kept ++ h.unflushed := rfl
    rw [hflush, hrecord, ← ht.stored_flush, ht.buffer]
  · unfold WalHistory.record
    simp only
    rw [List.append_nil]
    exact ht.increasing
  · rw [hresume]
    rcases List.mem_append.mp he with he | he
    · exact (ht.kept_lt e he).trans_le ht.resume_le
    · exact (ht.unflushed_mem e he).2
  · rw [hresume, hsame]
  · refine iff_of_false (fun hn => by cases hn) fun hn => ?_
    omega
  · rw [hresume]
    rcases List.mem_append.mp hn with hn | hn
    · exact (ht.covered_lt n hn).trans_le ht.resume_le
    · exact ((ht.handedOut n).mp hn).2
  · rw [hflush] at hnone
    cases hnone

/-- A flush that writes nothing keeps track where there is no number to remember. -/
theorem Tracked.flush_nil (ht : Tracked C w h) (hbuffer : w.buffer = [])
    (hnext : w.nextLsn = w.db.resumeLsn) : Tracked C w (h.record .flush .done) := by
  have hunflushed : h.unflushed = [] := ht.buffer.symm.trans hbuffer
  have hkept : (h.record .flush .done).kept = h.kept := by
    unfold WalHistory.record
    simp only
    rw [hunflushed, List.append_nil]
  refine ⟨hbuffer, ?_, ?_, ?_, ht.resume_le, fun e he => (by cases he), fun n => ?_, fun n hn => ?_,
    ?_⟩
  · rw [hkept]
    exact ht.stored
  · have hrecord : (h.record .flush .done).unflushed = [] := rfl
    rw [hkept, hrecord, List.append_nil]
    exact (increasing_append.mp ht.increasing).1
  · rw [hkept]
    exact ht.kept_lt
  · refine iff_of_false (fun hn => by cases hn) fun hn => ?_
    omega
  · rcases List.mem_append.mp hn with hn | hn
    · exact ht.covered_lt n hn
    · have hlt := ((ht.handedOut n).mp hn).2
      omega
  · rw [hkept]
    exact ht.kept_nil

theorem Tracked.truncateBefore (ht : Tracked C w h) (lsn : ℕ) :
    Tracked C (w.truncateBefore lsn) (h.record (.truncateBefore lsn) .done) := by
  have hzero : ∀ rows : List WalRow, (rows.filter fun e => 0 ≤ e.1) = rows := by
    intro rows
    rw [List.filter_eq_self]
    exact fun e _ => decide_eq_true (Nat.zero_le _)
  by_cases hlsn : lsn = 0
  · have hsame : h.record (.truncateBefore lsn) .done = h := by
      unfold WalHistory.record
      simp only
      rw [hlsn, hzero, hzero]
    rw [hsame, DiskWal.truncateBefore, if_pos hlsn]
    exact ht
  · have htruncate : w.truncateBefore lsn = ⟨⟨w.db.entries.retain fun k _ => lsn ≤ k,
        w.db.nextLsn⟩, w.nextLsn, w.buffer.filter fun e => lsn ≤ e.1⟩ := by
      rw [DiskWal.truncateBefore, if_neg hlsn]
    have hresume : (w.truncateBefore lsn).db.resumeLsn = w.db.resumeLsn := by
      rw [htruncate]
      cases hnext : w.db.nextLsn with
      | some n => rw [WalDb.resumeLsn, WalDb.resumeLsn, hnext]
      | none =>
        have hempty : ∀ n, w.db.entries.get? n = none := by
          intro n
          rw [Option.eq_none_iff_forall_ne_some]
          intro raw hget
          have hmem := (ht.stored n raw).mp hget
          rw [ht.kept_nil hnext] at hmem
          cases hmem
        have hempty' : ∀ n, (w.db.entries.retain fun k _ => lsn ≤ k).get? n = none := by
          intro n
          rw [Table.get?_retain_key, hempty, ite_self]
        rw [resumeLsn_of_empty hempty' rfl, resumeLsn_of_empty hempty hnext]
    have hsame : (w.truncateBefore lsn).nextLsn = w.nextLsn := by rw [htruncate]
    have hkept : (h.record (.truncateBefore lsn) .done).kept =
      h.kept.filter fun e => lsn ≤ e.1 := rfl
    refine ⟨?_, fun n raw => ?_, ?_, fun e he => ?_, ?_, fun e he => ?_, ?_, ?_, fun hnone => ?_⟩
    · rw [htruncate, ht.buffer]
      rfl
    · rw [htruncate, hkept, ← filter_sealed, List.mem_filter, ← ht.stored]
      exact Table.get?_retain_eq_some _ _ n raw
    · have hfilter := ht.increasing.filter fun e => decide (lsn ≤ e.1)
      rwa [List.filter_append] at hfilter
    · rw [hresume]
      exact ht.kept_lt e (List.mem_of_mem_filter he)
    · rw [hresume, hsame]
      exact ht.resume_le
    · rw [hresume, hsame]
      exact ht.unflushed_mem e (List.mem_of_mem_filter he)
    · rw [hresume, hsame]
      exact ht.handedOut
    · rw [hresume]
      exact ht.covered_lt
    · rw [htruncate] at hnone
      rw [hkept, ht.kept_nil hnone, List.filter_nil]

theorem tracked_start (C : WalChecksum) : Tracked C (.openAt ⟨∅, none⟩) .start := by
  have hresume : (DiskWal.openAt ⟨∅, none⟩).db.resumeLsn = 1 :=
    resumeLsn_of_empty (fun n => Table.get?_empty n) rfl
  refine ⟨rfl, fun n raw => ?_, List.Pairwise.nil, fun e he => (by cases he), Nat.le_refl _,
    fun e he => (by cases he), fun n => ?_, fun n hn => (by cases hn), fun _ => rfl⟩
  · refine iff_of_false (fun hget => ?_) fun hmem => by cases hmem
    have hnone : (∅ : Table ℕ Bytes).get? n = some raw := hget
    rw [Table.get?_empty] at hnone
    cases hnone
  · refine iff_of_false (fun hn => by cases hn) fun hn => ?_
    have hopen : (DiskWal.openAt ⟨∅, none⟩).nextLsn = (DiskWal.openAt ⟨∅, none⟩).db.resumeLsn := rfl
    omega

end

/-! ### Both logs -/

/-- The log in memory holds what was not truncated, and its number is behind by one. -/
structure MemoryTracked (m : MemoryWal) (w : DiskWal) (h : WalHistory) : Prop where
  nextLsn : m.nextLsn + 1 = w.nextLsn
  entries : m.entries = h.kept ++ h.unflushed

/-- A call on both logs gives one result, which the history records. -/
theorem MemoryTracked.call {C : WalChecksum} {m : MemoryWal} {w w' : DiskWal} {h : WalHistory}
    {c : WalCall} {r : WalResult} (ht : Tracked C w h) (hm : MemoryTracked m w h)
    (hcall : w.call C c = some (w', r)) :
    ∃ m', m.call c = some (m', r) ∧ MemoryTracked m' w' (h.record c r) := by
  have hnext := hm.nextLsn
  have hincreasing := ht.increasing
  rw [← hm.entries] at hincreasing
  cases c with
  | append entry =>
    obtain ⟨⟨w₁, n⟩, happend, hpair⟩ := Option.map_eq_some_iff.mp hcall
    obtain ⟨rfl, rfl⟩ := Prod.mk.inj hpair
    obtain ⟨next, hadd, hsome⟩ := Option.bind_eq_some_iff.mp happend
    obtain ⟨rfl, rfl⟩ := Prod.mk.inj (Option.some.inj hsome)
    obtain ⟨hsum, hlt⟩ := checkedAddU64_eq_some.mp hadd
    have hmemory : checkedAddU64 m.nextLsn 1 = some w.nextLsn :=
      checkedAddU64_eq_some.mpr ⟨hnext.symm, by omega⟩
    refine ⟨⟨w.nextLsn, m.entries ++ [(w.nextLsn, entry)]⟩, ?_, hsum.symm, ?_⟩
    · unfold MemoryWal.call MemoryWal.append
      simp only
      rw [hmemory]
      rfl
    · unfold WalHistory.record
      simp only
      rw [hm.entries, List.append_assoc]
  | flush =>
    obtain ⟨rfl, rfl⟩ := Prod.mk.inj (Option.some.inj hcall)
    refine ⟨m, rfl, ?_, ?_⟩
    · unfold DiskWal.flush
      split_ifs
      · exact hnext
      · exact hnext
    · unfold WalHistory.record
      simp only
      rw [hm.entries, List.append_nil]
  | iterFrom lsn =>
    obtain ⟨rfl, rfl⟩ := Prod.mk.inj (Option.some.inj hcall)
    refine ⟨m, ?_, hm⟩
    have hmemory : m.iterFrom lsn = (h.kept ++ h.unflushed).filter fun e => lsn ≤ e.1 := by
      rw [MemoryWal.iterFrom, MemoryWal.below, hincreasing.drop_takeWhile, hm.entries]
    rw [ht.iterFrom, ← hmemory]
    rfl
  | truncateBefore lsn =>
    obtain ⟨rfl, rfl⟩ := Prod.mk.inj (Option.some.inj hcall)
    refine ⟨m.truncateBefore lsn, rfl, ?_, ?_⟩
    · unfold DiskWal.truncateBefore
      split_ifs
      · exact hnext
      · exact hnext
    · unfold WalHistory.record MemoryWal.truncateBefore MemoryWal.below
      simp only
      rw [hincreasing.drop_takeWhile, hm.entries, List.filter_append]

namespace WalRun
variable {C : WalChecksum} {s : WalRun}

structure Sound (C : WalChecksum) (w : DiskWal) (s : WalRun) : Prop where
  disk : s.disk = some w
  tracked : Tracked C w s.history
  memory : s.reopened = false → s.diskResults = s.memoryResults ∧
    ∃ m, s.memory = some m ∧ MemoryTracked m w s.history

theorem sound_start (C : WalChecksum) : ∃ w, Sound C w start := by
  have hresume : (WalDb.mk ∅ none).resumeLsn = 1 :=
    resumeLsn_of_empty (fun n => Table.get?_empty n) rfl
  exact ⟨.openAt ⟨∅, none⟩, rfl, tracked_start C, fun _ => ⟨rfl, .new, rfl, hresume.symm, rfl⟩⟩

theorem Sound.faithful {w : DiskWal} (h : Sound C w s) : s.Faithful C := by
  have hopen := h.tracked.reopen
  refine ⟨fun hfirst => (h.memory hfirst).1, w, h.disk, fun lsn => ?_, fun n hn => ?_⟩
  · have hiter := hopen.iterFrom lsn
    have hall : s.history.reopen.kept ++ s.history.reopen.unflushed = s.history.kept :=
      List.append_nil _
    rwa [hall] at hiter
  · have hlt := h.tracked.covered_lt n hn
    have hle := h.tracked.resume_le
    have hresume : (DiskWal.openAt w.db).nextLsn = w.db.resumeLsn := rfl
    omega

/-- What a call that is safe leaves. -/
theorem Sound.call {w : DiskWal} (h : Sound C w s) {c : WalCall} (hsafe : s.Safe (.call c)) :
    ∃ w', Sound C w' (s.step C (.call c)) := by
  have htracked : ∃ w' r, w.call C c = some (w', r) ∧ Tracked C w' (s.history.record c r) := by
    cases c with
    | append entry =>
      have hlt := hsafe w h.disk
      have hadd : checkedAddU64 w.nextLsn 1 = some (w.nextLsn + 1) := if_pos hlt
      refine ⟨⟨w.db, w.nextLsn + 1, w.buffer ++ [(w.nextLsn, entry)]⟩, .lsn w.nextLsn, ?_,
        h.tracked.append entry _ rfl⟩
      unfold DiskWal.call DiskWal.append
      simp only
      rw [hadd]
      rfl
    | flush =>
      refine ⟨w.flush C, .done, rfl, ?_⟩
      by_cases hbuffer : w.buffer = []
      · have hflush : w.flush C = w := by
          rw [DiskWal.flush, hbuffer]
          exact if_pos rfl
        rw [hflush]
        exact h.tracked.flush_nil hbuffer (hsafe w h.disk hbuffer)
      · exact h.tracked.flush hbuffer
    | iterFrom lsn => exact ⟨w, _, rfl, h.tracked⟩
    | truncateBefore lsn => exact ⟨_, .done, rfl, h.tracked.truncateBefore lsn⟩
  obtain ⟨w', r, hcall, htracked⟩ := htracked
  have hdisk : (s.disk.bind fun w => w.call C c) = some (w', r) := by
    rw [h.disk, Option.bind_some, hcall]
  refine ⟨w', ?_, ?_, fun hfirst => ?_⟩
  · unfold step
    simp only
    rw [hdisk, Option.map_some]
  · unfold step
    simp only
    rw [hdisk, Option.elim_some]
    exact htracked
  · obtain ⟨hsame, m, hmemory, hm⟩ := h.memory hfirst
    obtain ⟨m', hcall', hm'⟩ := MemoryTracked.call h.tracked hm hcall
    have hmemory' : (s.memory.bind fun w => w.call c) = some (m', r) := by
      rw [hmemory, Option.bind_some, hcall']
    unfold step
    simp only
    rw [hdisk, hmemory', hsame]
    exact ⟨rfl, m', rfl, hm'⟩

theorem Sound.step {w : DiskWal} (h : Sound C w s) {input : WalInput} (hsafe : s.Safe input) :
    ∃ w', Sound C w' (s.step C input) := by
  cases input with
  | call c => exact h.call hsafe
  | reopen =>
    refine ⟨.openAt w.db, ?_, h.tracked.reopen, fun hfirst => by cases hfirst⟩
    unfold WalRun.step
    simp only
    rw [h.disk, Option.map_some]

/-- A call after which both logs are still faithful was safe. -/
theorem Sound.safe_of_faithful {w : DiskWal} (h : Sound C w s) {input : WalInput}
    (hnext : (s.step C input).Faithful C) : s.Safe input := by
  cases input with
  | reopen => trivial
  | call c =>
    cases c with
    | append entry =>
      intro w₁ hw₁
      obtain rfl := Option.some.inj (h.disk.symm.trans hw₁)
      obtain ⟨w', hw', -⟩ := hnext.running
      by_contra hfull
      have hadd : checkedAddU64 w.nextLsn 1 = none := if_neg hfull
      unfold WalRun.step at hw'
      simp only at hw'
      rw [h.disk, Option.bind_some, DiskWal.call, DiskWal.append, hadd] at hw'
      cases hw'
    | flush =>
      intro w₁ hw₁ hbuffer
      obtain rfl := Option.some.inj (h.disk.symm.trans hw₁)
      obtain ⟨w', hw', -, hfresh⟩ := hnext.running
      have hle := h.tracked.resume_le
      by_contra hne
      have hflush : w.flush C = w := by
        rw [DiskWal.flush, hbuffer]
        exact if_pos rfl
      have hdisk : (s.disk.bind fun w => w.call C .flush) = some (w, .done) := by
        rw [h.disk, Option.bind_some, DiskWal.call, hflush]
      unfold WalRun.step at hw' hfresh
      simp only at hw' hfresh
      rw [hdisk] at hw' hfresh
      obtain rfl : w = w' := Option.some.inj hw'
      -- the number on disk was handed out, and this flush does not raise it
      have hhanded := (h.tracked.handedOut w.db.resumeLsn).mpr ⟨Nat.le_refl _, by omega⟩
      exact (hfresh w.db.resumeLsn (List.mem_append_right _ hhanded)).2 rfl
    | iterFrom lsn => trivial
    | truncateBefore lsn => trivial

/-- Over all sequences of calls and reopenings the log on disk is faithful throughout exactly when
every step is safe. -/
theorem disk_wal_faithful_iff (C : WalChecksum) (inputs : List WalInput) :
    (∀ k, (run (WalRun.step C) start (inputs.take k)).Faithful C) ↔
      Along (WalRun.step C) Safe start inputs := by
  refine along_iff_of_invariant (I := fun s => ∃ w, Sound C w s) ?_ ?_ ?_ (sound_start C)
  · rintro s ⟨w, hw⟩
    exact hw.faithful
  · rintro s input ⟨w, hw⟩ hsafe
    exact hw.step hsafe
  · rintro s input ⟨w, hw⟩ hnext
    exact hw.safe_of_faithful hnext

end WalRun

namespace Sample

def zeroChecksum : WalChecksum := ⟨fun _ => List.replicate 8 0, fun _ => rfl⟩

/-- The only entry is truncated before it is flushed, and its number goes to the next entry once the
database is opened again. -/
theorem truncated_lsn_reused :
    (run (WalRun.step zeroChecksum) .start [.call (.append [1]), .call (.truncateBefore 2),
        .call .flush]).history.covered = [1] ∧
      (run (WalRun.step zeroChecksum) .start [.call (.append [1]), .call (.truncateBefore 2),
        .call .flush, .reopen, .call (.append [2])]).history.handedOut = [1] ∧
      ¬ (run (WalRun.step zeroChecksum) .start [.call (.append [1]), .call (.truncateBefore 2),
        .call .flush]).Faithful zeroChecksum := by
  refine ⟨by decide +kernel, by decide +kernel, fun h => ?_⟩
  obtain ⟨w, hw, -, hfresh⟩ := h.running
  have hdisk : (run (WalRun.step zeroChecksum) .start [.call (.append [1]),
      .call (.truncateBefore 2), .call .flush]).disk = some ⟨⟨∅, none⟩, 2, []⟩ := by
    decide +kernel
  obtain rfl := Option.some.inj (hdisk.symm.trans hw)
  exact (hfresh 1 (by decide +kernel)).2 (by decide +kernel)

end Sample

end Boule
