import Chericat.CompartGraphs
import Chericat.LastWrite
import Chericat.Rescan
import Chericat.SectionColumns
import Chericat.ScanFailure

/-!
Any sequence of scans into one database, each with statements that fail or
without.  The rows of every scan are kept as they would be alone, but for the
columns that a later scan of the same path or compartment writes over them.
-/

namespace Chericat

open Numeral

/-! ### Columns as registers -/

def VmInfo.withColumns (v : VmInfo) (c : Columns) : VmInfo :=
  ⟨v.toVmEntry, c.1, c.2.1, c.2.2.1, c.2.2.2⟩

theorem VmInfo.eq_withColumns {v w : VmInfo}
    (h : w.toVmEntry = v.toVmEntry) : w = v.withColumns w.columns := by
  obtain ⟨entry, plt, pltSize, got, gotSize⟩ := w
  cases h
  rfl

/-- The columns that a statement writes into the rows of a path. -/
def sectionWrite (path : Text) : Statement → Option Columns
  | .updateVm u =>
      if path = u.mmapPath then
        some (some (hexText u.pltAddr.toNat), some (hexText u.pltSize.toNat),
          some (hexText u.gotAddr.toNat), some (hexText u.gotSize.toNat))
      else none
  | _ => none

theorem columns_onSections (r : VmInfo) (s : Statement) :
    (s.onSections r).columns =
      (sectionWrite r.mmapPath s).getD r.columns := by
  cases s with
  | updateVm u =>
      rw [Statement.onSections, SectionUpdate.apply, sectionWrite]
      split <;> rfl
  | _ => rfl

/-- A row gets the columns last written for its path. -/
theorem sectionColumns_eq (ss : List Statement) (r : VmInfo) :
    sectionColumns ss r = r.withColumns
      ((lastWrite (sectionWrite r.mmapPath) ss).getD r.columns) := by
  have hentry := toVmEntry_sectionColumns ss r
  have hcolumns : (sectionColumns ss r).columns =
      (lastWrite (sectionWrite r.mmapPath) ss).getD r.columns := by
    refine read_foldl (I := fun v : VmInfo => v.mmapPath = r.mmapPath)
      (fun v s hv => ?_) (fun v s hv => ?_) rfl ss
    · exact (congrArg VmEntry.mmapPath (toVmEntry_onSections s v)).trans hv
    · rw [columns_onSections, hv]
  rw [← hcolumns]
  exact VmInfo.eq_withColumns hentry

/-- The row that a statement puts in the place of the one with this id. -/
def rowWrite (id : Int) : Statement → Option CompInfo
  | .replaceDefault c => if id = c.compartId then some c.row else none
  | .replaceSubcompart c => if id = c.compartId then some c.row else none
  | _ => none

/-- The name that a statement gives to the row with this id. -/
def nameWrite (id : Int) : Statement → Option (Option Text)
  | .updateCompartName name i => if id = i then some (some name) else none
  | s => (rowWrite id s).map CompInfo.compartName

/-- The row last put, under the name last given. -/
def lastRow (put row : Option CompInfo) (name : Option (Option Text)) :
    Option CompInfo :=
  (put.or row).map fun r => r.rename (name.getD r.compartName)

theorem onRow_eq (id : Int) (row : Option CompInfo) (s : Statement) :
    s.onRow id row = lastRow (rowWrite id s) row (nameWrite id s) := by
  have hkeep : row = lastRow none row none := by
    cases row <;> rfl
  cases s with
  | replaceDefault c =>
      rw [Statement.onRow, nameWrite, rowWrite]
      · split
        · rfl
        · exact hkeep
      · intro _ _ h
        cases h
  | replaceSubcompart c =>
      rw [Statement.onRow, nameWrite, rowWrite]
      · split
        · rfl
        · exact hkeep
      · intro _ _ h
        cases h
  | updateCompartName name i =>
      rw [Statement.onRow, nameWrite, rowWrite]
      split
      · cases row <;> rfl
      · exact hkeep
      all_goals
        intro _ h
        cases h
  | _ => exact hkeep

/-- Writes one after the other. -/
theorem lastRow_lastRow {put put' row : Option CompInfo}
    {name name' : Option (Option Text)}
    (h : ∀ r, put' = some r → name'.isSome) :
    lastRow put' (lastRow put row name) name' =
      lastRow (put'.or put) row (name'.or name) := by
  cases put' with
  | some r =>
      obtain ⟨n, rfl⟩ := Option.isSome_iff_exists.1 (h r rfl)
      rfl
  | none =>
      cases name' <;> cases name <;> cases hrow : put.or row <;>
        simp [lastRow, hrow, CompInfo.rename]

theorem nameWrite_of_rowWrite {id : Int} {s : Statement} {r : CompInfo}
    (h : rowWrite id s = some r) : nameWrite id s = some r.compartName := by
  cases s with
  | updateCompartName name i => cases h
  | replaceDefault c => exact congrArg (Option.map CompInfo.compartName) h
  | replaceSubcompart c => exact congrArg (Option.map CompInfo.compartName) h
  | _ => cases h

/-- A row is the one last put, or the old one, under the name last given. -/
theorem foldl_onRow (id : Int) (ss : List Statement) (row : Option CompInfo) :
    ss.foldl (Statement.onRow id) row =
      lastRow (lastWrite (rowWrite id) ss) row
        (lastWrite (nameWrite id) ss) := by
  induction ss using List.reverseRecOn with
  | nil => cases row <;> rfl
  | append_singleton ss s ih =>
      rw [List.foldl_append, List.foldl_cons, List.foldl_nil, ih, onRow_eq,
        lastRow_lastRow, lastWrite_concat, lastWrite_concat]
      intro r hr
      rw [nameWrite_of_rowWrite hr]
      rfl

/-! ### Scans of one database -/

/-- One call of `scan_mem`: what it scans, and which of its statements
succeed. -/
structure ScanJob where
  target : Target
  ok : Nat → Bool

namespace ScanJob

variable (j : ScanJob)

/-- The statements that succeed. -/
def statements : List Statement := succeeded j.ok (scanStatements j.target)

/-- The tables it would leave in a database of its own. -/
def own : Db := dbScannedSome j.ok j.target Db.empty

/-- The columns it leaves in the rows of a path. -/
def columns (path : Text) : Option Columns :=
  lastWrite (sectionWrite path) j.statements

/-- The name it leaves in a row of `comparts`. -/
def name (id : Int) : Option (Option Text) :=
  lastWrite (nameWrite id) j.statements

/-- The texts of the scan are all read as they are meant. -/
structure Clean : Prop where
  texts : j.target.Clean
  array : j.target.CleanArray

end ScanJob

/-- The database after some scans. -/
def afterScans (jobs : List ScanJob) (db : Db) : Db :=
  jobs.foldl (fun db j => dbScannedSome j.ok j.target db) db

/-- A row of `vm` after later scans. -/
def laterColumns (later : List ScanJob) (r : VmInfo) : VmInfo :=
  r.withColumns ((lastWrite (·.columns r.mmapPath) later).getD r.columns)

/-- The rows of `vm` that the scans leave. -/
def historyVm : List ScanJob → List VmInfo
  | [] => []
  | j :: later => j.own.vm.map (laterColumns later) ++ historyVm later

/-- The row of `comparts` that the scans leave where `old` was. -/
def historyRow (jobs : List ScanJob) (id : Int) (old : Option CompInfo) :
    Option CompInfo :=
  lastRow (lastWrite (fun j => j.own.comparts.lookup id) jobs) old
    (lastWrite (·.name id) jobs)

theorem afterScans_concat (jobs : List ScanJob) (j : ScanJob) (db : Db) :
    afterScans (jobs ++ [j]) db =
      dbScannedSome j.ok j.target (afterScans jobs db) := by
  rw [afterScans, List.foldl_append]
  rfl

/-! ### The table of compartments -/

section Comparts

variable {j : ScanJob}

theorem ScanJob.Clean.scanned_eq (h : j.Clean) (db : Db) :
    dbScannedSome j.ok j.target db = runAll j.statements db :=
  dbScannedSome_eq h.texts h.array j.ok db

theorem ScanJob.Clean.lookup_own (h : j.Clean) (id : Int) :
    j.own.comparts.lookup id =
      lastRow (lastWrite (rowWrite id) j.statements) none (j.name id) := by
  rw [ScanJob.own, h.scanned_eq, runAll_eq]
  exact (lookup_foldl_runComparts _ _ _).trans (foldl_onRow _ _ _)

/-- What a row of a scan's own tables is called, the scan has called it. -/
theorem ScanJob.Clean.name_of_lookup (hj : j.Clean) {id : Int} {r : CompInfo}
    (h : j.own.comparts.lookup id = some r) :
    j.name id = some r.compartName := by
  rw [hj.lookup_own, lastRow, Option.or_none] at h
  obtain ⟨put, hput, rfl⟩ := Option.map_eq_some_iff.1 h
  -- the row that was put has given a name, so one was given last
  cases hname : j.name id with
  | some n => rfl
  | none =>
      obtain ⟨before, s, after, hsplit, hs, -⟩ := lastWrite_eq_some_iff.1 hput
      have hnone := lastWrite_eq_none_iff.1 hname s (by simp [hsplit])
      rw [nameWrite_of_rowWrite hs] at hnone
      cases hnone

theorem ScanJob.Clean.lookup_scanned (h : j.Clean) (db : Db) (id : Int) :
    (dbScannedSome j.ok j.target db).comparts.lookup id =
      lastRow (j.own.comparts.lookup id) (db.comparts.lookup id)
        (j.name id) := by
  rw [h.scanned_eq, runAll_eq]
  refine (lookup_foldl_runComparts _ _ _).trans ?_
  rw [foldl_onRow, h.lookup_own]
  cases lastWrite (rowWrite id) j.statements with
  | none => rfl
  | some put =>
      change lastRow (some put) _ (j.name id) = _
      cases j.name id <;> rfl

theorem lookup_afterScans {jobs : List ScanJob} (h : ∀ j ∈ jobs, j.Clean)
    (db : Db) (id : Int) : (afterScans jobs db).comparts.lookup id =
      historyRow jobs id (db.comparts.lookup id) := by
  induction jobs using List.reverseRecOn with
  | nil =>
      rw [historyRow, lastWrite_nil, lastWrite_nil]
      cases hrow : db.comparts.lookup id <;> exact hrow
  | append_singleton jobs j ih =>
      rw [List.forall_mem_append, List.forall_mem_singleton] at h
      rw [afterScans_concat, h.2.lookup_scanned, ih h.1, historyRow, historyRow,
        lastRow_lastRow, lastWrite_concat, lastWrite_concat]
      intro r hr
      rw [h.2.name_of_lookup hr]
      rfl

end Comparts

/-! ### The other tables -/

section Rows

variable {j : ScanJob} (h : j.target.Clean)
include h

theorem capInfo_scanned (db : Db) :
    (dbScannedSome j.ok j.target db).capInfo =
      db.capInfo ++ j.own.capInfo := by
  rw [ScanJob.own, (sameRows_dbScannedSome h _ _).capInfo,
    (sameRows_dbScannedSome h _ _).capInfo]
  simp only [dbAfterSome, runAll_eq, Db.empty, List.nil_append]

theorem elfSym_scanned (db : Db) :
    (dbScannedSome j.ok j.target db).elfSym = db.elfSym ++ j.own.elfSym := by
  rw [ScanJob.own, (sameRows_dbScannedSome h _ _).elfSym,
    (sameRows_dbScannedSome h _ _).elfSym]
  simp only [dbAfterSome, runAll_eq, Db.empty, List.nil_append]

theorem vm_scanned (db : Db) :
    (dbScannedSome j.ok j.target db).vm =
      db.vm.map (sectionColumns j.statements) ++ j.own.vm := by
  rw [ScanJob.own, (sameRows_dbScannedSome h _ _).vm,
    (sameRows_dbScannedSome h _ _).vm]
  simp only [dbAfterSome, runAll_eq]
  exact foldl_runVm _ _

end Rows

theorem laterColumns_cons (j : ScanJob) (later : List ScanJob) (r : VmInfo) :
    laterColumns later (sectionColumns j.statements r) =
      laterColumns (j :: later) r := by
  rw [sectionColumns_eq, laterColumns, laterColumns, lastWrite_cons]
  simp only [VmInfo.withColumns, VmInfo.columns, ScanJob.columns]
  cases lastWrite (fun k : ScanJob =>
    lastWrite (sectionWrite r.mmapPath) k.statements) later <;> rfl

theorem vm_afterScans {jobs : List ScanJob}
    (h : ∀ j ∈ jobs, j.target.Clean) (db : Db) :
    (afterScans jobs db).vm =
      db.vm.map (laterColumns jobs) ++ historyVm jobs := by
  induction jobs generalizing db with
  | nil =>
      have hkeep : laterColumns [] = id := rfl
      simp [afterScans, historyVm, hkeep]
  | cons j jobs ih =>
      rw [List.forall_mem_cons] at h
      refine (ih h.2 _).trans ?_
      rw [vm_scanned h.1, List.map_append, List.map_map, historyVm,
        List.append_assoc]
      exact congrArg (· ++ _) (List.map_congr_left fun r _ =>
        laterColumns_cons j jobs r)

/-- A table that each scan appends its rows to. -/
theorem appended_afterScans {α : Type} {jobs : List ScanJob}
    {rows : Db → List α} (h : ∀ j ∈ jobs, ∀ db,
      rows (dbScannedSome j.ok j.target db) = rows db ++ rows j.own) (db : Db) :
    rows (afterScans jobs db) = rows db ++ jobs.flatMap fun j => rows j.own := by
  induction jobs using List.reverseRecOn with
  | nil => simp [afterScans]
  | append_singleton jobs j ih =>
      rw [List.forall_mem_append, List.forall_mem_singleton] at h
      rw [afterScans_concat, h.2, ih h.1, List.flatMap_append,
        List.append_assoc, List.flatMap_singleton]

/-! ### Whole histories -/

/-- The tables after a sequence of scans: rows are kept in the order of the
scans, the columns of a path are those last written, the row of a compartment
that of the last scan to store one under the name last given, and a symbol is
that of the first scan that has one at the address. -/
structure HistoryTables (jobs : List ScanJob) (db final : Db) : Prop where
  capInfo : final.capInfo =
    db.capInfo ++ jobs.flatMap fun j => j.own.capInfo
  elfSym : final.elfSym = db.elfSym ++ jobs.flatMap fun j => j.own.elfSym
  vm : final.vm = db.vm.map (laterColumns jobs) ++ historyVm jobs
  comparts : (∀ j ∈ jobs, j.target.CleanArray) → ∀ id,
    final.comparts.lookup id = historyRow jobs id (db.comparts.lookup id)
  symbols : ∀ addr, symAt final.elfSym addr =
    (symAt db.elfSym addr).or
      (jobs.findSome? fun j => symAt j.own.elfSym addr)

/-- After any sequence of scans, finished or not, and whichever of their
statements failed, the tables are those of the history. -/
theorem historyTables {jobs : List ScanJob} (h : ∀ j ∈ jobs, j.target.Clean)
    (db : Db) : HistoryTables jobs db (afterScans jobs db) := by
  have helfSym : (afterScans jobs db).elfSym =
      db.elfSym ++ jobs.flatMap fun j => j.own.elfSym :=
    appended_afterScans (fun j hj => elfSym_scanned (h j hj)) db
  refine ⟨appended_afterScans (fun j hj => capInfo_scanned (h j hj)) db,
    helfSym, vm_afterScans h db, fun harray =>
      lookup_afterScans (fun j hj => ⟨h j hj, harray j hj⟩) db, ?_⟩
  intro addr
  rw [helfSym, symAt, List.find?_append, List.find?_flatMap]
  rfl

/-- A scan that stops at a missing file. -/
def strandedJob : ScanJob := ⟨missingFileTarget, fun _ => true⟩

/-- A scan of a small process. -/
def lsJob : ScanJob := ⟨lsTarget, fun _ => true⟩

theorem strandedJob_clean : strandedJob.Clean :=
  ⟨missingFileTarget_clean, sample_cleanArray _ _⟩

theorem lsJob_clean : lsJob.Clean :=
  ⟨lsTarget_clean, lsTarget_cleanArray⟩

theorem ls_jobs_clean : ∀ j ∈ [lsJob, strandedJob], j.Clean := by
  simp [lsJob_clean, strandedJob_clean]

theorem strandedJob_own :
    strandedJob.own = dbAfter missingFileTarget Db.empty :=
  strandedJob_clean.scanned_eq Db.empty

theorem lsJob_own : lsJob.own = dbAfter lsTarget Db.empty :=
  lsJob_clean.scanned_eq Db.empty

/-- The capability of the scan that stopped stands behind that of the other. -/
theorem ls_history :
    HistoryTables [lsJob, strandedJob] Db.empty
        (afterScans [lsJob, strandedJob] Db.empty) ∧
      (afterScans [lsJob, strandedJob] Db.empty).capInfo.map (·.capLocPath) =
        ["Stack".toList, "Heap(others)".toList] := by
  refine ⟨historyTables (fun j hj => (ls_jobs_clean j hj).texts) Db.empty, ?_⟩
  rw [afterScans, List.foldl_cons, List.foldl_cons, List.foldl_nil,
    lsJob_clean.scanned_eq, strandedJob_clean.scanned_eq]
  decide +kernel

end Chericat
