import Chericat.Program
import Chericat.CompartGraphs

/-!
Runs of the program one after the other, on files of their own or shared ones.
A file holds what the scans into it have written; the views show it.
-/

namespace Chericat

/-! ### Runs on files -/

instance : DecidablePred Opt.Acceptable
  | .debug => isTrue trivial
  | .db arg => inferInstanceAs (Decidable (startsWithDash arg = false))
  | .attach arg => inferInstanceAs (Decidable ((Numeral.strtol 10 arg).2 = []))
  | .overview => isTrue trivial
  | .capsInfo arg => inferInstanceAs (Decidable (startsWithDash arg = false))
  | .other => isFalse id

instance (env : MainEnv) (opts : List Opt) (args : List Text) :
    Decidable (ScanReached env opts args) :=
  decidable_of_iff (opts ≠ [] ∧ (∀ o ∈ opts, o.Acceptable) ∧
      (finalState opts).commandOk args = true ∧
      (finalState opts).attach = true ∧ env.opens = true)
    ⟨fun ⟨given, accepted, command, attach, opens⟩ =>
        ⟨given, accepted, command, attach, opens⟩,
      fun h => ⟨h.given, h.accepted, h.command, h.attach, h.opens⟩⟩

/-- One run of the program: its options and commands, and what it meets. -/
structure Invocation where
  env : ProgramEnv
  opts : List Opt
  args : List Text

namespace Invocation

variable (i : Invocation)

def run (d : Database) : Program PUnit := program i.env i.opts i.args d

/-- The run calls `scan_mem`. -/
def Scans : Prop := ScanReached i.env.main i.opts i.args

instance : Decidable i.Scans :=
  inferInstanceAs (Decidable (ScanReached i.env.main i.opts i.args))

/-- Its call of `scan_mem`. -/
def job : ScanJob := ⟨i.env.attached (finalState i.opts), i.env.ok⟩

/-- The argument of its `-i` holds no quote. -/
def QuoteFree : Prop := LibQuoteFree (finalState i.opts)

/-- The file behind the run. -/
def leaves (d : Database) : Database := fileAfter i.env (i.run d) d

variable {i}

theorem QuoteFree.leaves_eq (h : i.QuoteFree) (d : Database) :
    i.leaves d = if i.Scans then scanInto i.job.ok i.job.target d else d := by
  split
  · next hscans => exact (fileAfter_program h).1 hscans
  · next hscans => exact (fileAfter_program h).2 hscans

end Invocation

section Sessions

variable {κ : Type} [DecidableEq κ] (fileOf : Text → Option κ)

/-- The files behind a run; `fileOf` tells which file a name stands for, and is
`none` for a database that is gone with the run. -/
def Invocation.step (files : κ → Database) (i : Invocation) : κ → Database :=
  match fileOf (dbName i.opts) with
  | none => files
  | some k => Function.update files k (i.leaves (files k))

def afterSession (session : List Invocation) (files : κ → Database) :
    κ → Database :=
  session.foldl (Invocation.step fileOf) files

/-- The calls of `scan_mem` that write into a file. -/
def scansInto (k : κ) (session : List Invocation) : List ScanJob :=
  (session.filter fun i =>
    fileOf (dbName i.opts) = some k ∧ i.Scans).map Invocation.job

/-- The file after some calls of `scan_mem`. -/
def scanAll (jobs : List ScanJob) (d : Database) : Database :=
  jobs.foldl (fun d j => scanInto j.ok j.target d) d

variable {fileOf}

theorem step_eq (files : κ → Database) {i : Invocation} (hi : i.QuoteFree)
    (k : κ) :
    i.step fileOf files k = scanAll (scansInto fileOf k [i]) (files k) := by
  rw [Invocation.step, scansInto]
  cases hfile : fileOf (dbName i.opts) with
  | none => simp [hfile, scanAll]
  | some k' =>
      by_cases hk : k = k'
      · subst hk
        simp only [Function.update_self, hi.leaves_eq]
        by_cases hscans : i.Scans <;> simp [hfile, hscans, scanAll]
      · simp [hfile, hk, Ne.symm hk, scanAll]

/-- A file holds what the scans into it have left. -/
theorem afterSession_eq {session : List Invocation}
    (h : ∀ i ∈ session, i.QuoteFree) (files : κ → Database) (k : κ) :
    afterSession fileOf session files k =
      scanAll (scansInto fileOf k session) (files k) := by
  induction session using List.reverseRecOn with
  | nil => rfl
  | append_singleton session i ih =>
      rw [List.forall_mem_append, List.forall_mem_singleton] at h
      have hsplit : scansInto fileOf k (session ++ [i]) =
          scansInto fileOf k session ++ scansInto fileOf k [i] := by
        simp [scansInto]
      rw [afterSession, List.foldl_append, hsplit, scanAll, List.foldl_append,
        List.foldl_cons, List.foldl_nil, step_eq _ h.2]
      exact congrArg (scanAll _) (ih h.1)

end Sessions

/-! ### Scans one after the other -/

theorem scanAll_concat (jobs : List ScanJob) (j : ScanJob) (d : Database) :
    scanAll (jobs ++ [j]) d = scanInto j.ok j.target (scanAll jobs d) := by
  rw [scanAll, List.foldl_append]
  rfl

/-- The rows are those of scans of the same processes, some statements of which
have failed. -/
theorem exists_jobs_scanAll {jobs : List ScanJob}
    (hclean : ∀ j ∈ jobs, j.Clean) (d : Database) :
    ∃ jobs', jobs'.map ScanJob.target = jobs.map ScanJob.target ∧
      (scanAll jobs d).db = afterScans jobs' d.db := by
  induction jobs using List.reverseRecOn with
  | nil => exact ⟨[], rfl, rfl⟩
  | append_singleton jobs j ih =>
      rw [List.forall_mem_append, List.forall_mem_singleton] at hclean
      obtain ⟨jobs', htargets, hdb⟩ := ih hclean.1
      obtain ⟨ok, hok⟩ := hclean.2.exists_scanInto (scanAll jobs d)
      refine ⟨jobs' ++ [⟨j.target, ok⟩], ?_, ?_⟩
      · rw [List.map_append, List.map_append, htargets]
        rfl
      · rw [scanAll_concat, hok, hdb, afterScans_concat]

/-- No `CREATE` of the scan fails. -/
def ScanJob.Creates (j : ScanJob) : Prop := CreatesSucceed j.ok j.target

theorem db_scanAll {jobs : List ScanJob} (hclean : ∀ j ∈ jobs, j.Clean)
    (h : ∀ j ∈ jobs, j.Creates) (d : Database) :
    (scanAll jobs d).db = afterScans jobs d.db := by
  induction jobs using List.reverseRecOn with
  | nil => rfl
  | append_singleton jobs j ih =>
      rw [List.forall_mem_append, List.forall_mem_singleton] at hclean h
      rw [scanAll_concat, hclean.2.db_scanInto h.2, ih hclean.1 h.1,
        afterScans_concat]

instance (t : Target) (tb : Table) : Decidable (CreatesTable t tb) :=
  inferInstanceAs (Decidable (∃ s ∈ scanStatements t, s.creates = some tb))

/-- The table was there, or a scan has created it. -/
def presentAfter (jobs : List ScanJob) (d : Database) (tb : Table) : Bool :=
  d.present tb || jobs.any fun j => CreatesTable j.target tb

theorem present_scanAll {jobs : List ScanJob} (hclean : ∀ j ∈ jobs, j.Clean)
    (h : ∀ j ∈ jobs, j.Creates) (d : Database) :
    (scanAll jobs d).present = presentAfter jobs d := by
  funext tb
  rw [Bool.eq_iff_iff]
  induction jobs using List.reverseRecOn with
  | nil => simp [scanAll, presentAfter]
  | append_singleton jobs j ih =>
      rw [List.forall_mem_append, List.forall_mem_singleton] at hclean h
      rw [scanAll_concat, hclean.2.present_scanInto h.2, ih hclean.1 h.1]
      simp [presentAfter, or_assoc]

theorem present_scanAll_of_present {jobs : List ScanJob}
    (hclean : ∀ j ∈ jobs, j.Clean) {d : Database} {tb : Table}
    (h : d.present tb = true) :
    (scanAll jobs d).present tb = true := by
  induction jobs using List.reverseRecOn with
  | nil => exact h
  | append_singleton jobs j ih =>
      rw [List.forall_mem_append, List.forall_mem_singleton] at hclean
      rw [scanAll_concat]
      exact hclean.2.present_of_present (ih hclean.1)

theorem capInfo_scanAll {jobs : List ScanJob}
    (hclean : ∀ j ∈ jobs, j.Clean) {d : Database}
    (h : d.present .vm = true → d.present .capInfo = true) :
    (scanAll jobs d).present .vm = true →
      (scanAll jobs d).present .capInfo = true := by
  induction jobs using List.reverseRecOn with
  | nil => exact h
  | append_singleton jobs j ih =>
      rw [List.forall_mem_append, List.forall_mem_singleton] at hclean
      rw [scanAll_concat]
      exact hclean.2.capInfo_of_vm (ih hclean.1)

/-! ### Whole sessions -/

section Histories

variable {κ : Type} [DecidableEq κ] (fileOf : Text → Option κ)

/-- What has become of a file: whatever has failed, its rows are those of scans
of the processes it was filled from, no table has vanished, and `vm` is not
there without `cap_info`.  Where no `CREATE` has failed, it has the tables and
the rows of all scans; all but `elf_sym` are there once a scan has found the map
of its process. -/
structure SessionFile (session : List Invocation) (files : κ → Database)
    (k : κ) : Prop where
  rows : ∃ jobs, jobs.map ScanJob.target =
      (scansInto fileOf k session).map ScanJob.target ∧
    (afterSession fileOf session files k).db = afterScans jobs (files k).db
  kept : ∀ tb, (files k).present tb = true →
    (afterSession fileOf session files k).present tb = true
  paired : ((files k).present .vm = true →
      (files k).present .capInfo = true) →
    (afterSession fileOf session files k).present .vm = true →
      (afterSession fileOf session files k).present .capInfo = true
  complete : (∀ j ∈ scansInto fileOf k session, j.Creates) →
    (afterSession fileOf session files k).db =
        afterScans (scansInto fileOf k session) (files k).db ∧
      (afterSession fileOf session files k).present =
        presentAfter (scansInto fileOf k session) (files k)
  created : (∀ j ∈ scansInto fileOf k session, j.Creates) →
    ∀ tb ∈ createdFirst,
      (afterSession fileOf session files k).present tb = true ↔
        (files k).present tb = true ∨
          ∃ j ∈ scansInto fileOf k session, FindsMap j.target

theorem sessionFile {session : List Invocation}
    (hquotes : ∀ i ∈ session, i.QuoteFree) (files : κ → Database) {k : κ}
    (hclean : ∀ j ∈ scansInto fileOf k session, j.Clean) :
    SessionFile fileOf session files k := by
  constructor <;> rw [afterSession_eq hquotes]
  · exact exists_jobs_scanAll hclean _
  · exact fun tb => present_scanAll_of_present hclean
  · exact capInfo_scanAll hclean
  · exact fun h => ⟨db_scanAll hclean h _, present_scanAll hclean h _⟩
  · intro h tb htb
    rw [present_scanAll hclean h, presentAfter]
    simp [createsTable_iff htb]

/-- The database that a run finds. -/
def Invocation.finds (i : Invocation) (files : κ → Database) : Database :=
  match fileOf (dbName i.opts) with
  | some k => files k
  | none => .new

/-- The scans that the views of a run show: those into its file before it, and
its own. -/
def Invocation.history (i : Invocation) (session : List Invocation) :
    List ScanJob :=
  (match fileOf (dbName i.opts) with
    | some k => scansInto fileOf k session
    | none => []) ++
    if (finalState i.opts).attach then [i.job] else []

variable {session : List Invocation} (files : κ → Database) (i : Invocation)

theorem scanned_finds (hquotes : ∀ i ∈ session, i.QuoteFree) :
    i.env.scanned (finalState i.opts)
    (i.finds fileOf (afterSession fileOf session files)) =
      scanAll (i.history fileOf session) (i.finds fileOf files) := by
  have hown : ∀ jobs d, i.env.scanned (finalState i.opts) (scanAll jobs d) =
      scanAll (jobs ++ if (finalState i.opts).attach then [i.job] else [])
        d := by
    intro jobs d
    rw [ProgramEnv.scanned]
    split
    · exact (scanAll_concat jobs i.job d).symm
    · rw [List.append_nil]
  rw [Invocation.finds, Invocation.finds, Invocation.history]
  cases fileOf (dbName i.opts) with
  | none => exact hown [] Database.new
  | some k =>
      dsimp only
      rw [afterSession_eq hquotes]
      exact hown _ _

end Histories

/-- `chericat -f a -p 1` -/
def lsAttach : Invocation :=
  ⟨lsEnv, [.db "a".toList, .attach "1".toList], []⟩

/-- `chericat -f a -v show lib` -/
def lsOverview : Invocation :=
  ⟨lsEnv, [.db "a".toList, .overview], ["show".toList, "lib".toList]⟩

/-- Names are files of their own. -/
def ownFile (name : Text) : Option Text :=
  if name = ":memory:".toList then none else some name

instance (i : Int) : Decidable (IsInt i) :=
  inferInstanceAs (Decidable (_ ∧ _))

theorem lsAttach_scansInto :
    scansInto ownFile "a".toList [lsAttach] = [lsJob] := rfl

theorem ls_creates : ∀ j ∈ [lsJob], j.Creates :=
  List.forall_mem_singleton.2 fun _ _ _ _ => rfl

theorem ls_session_quoteFree : ∀ i ∈ [lsOverview, lsAttach], i.QuoteFree := by
  have hnone : ∀ i ∈ [lsOverview, lsAttach],
      (finalState i.opts).capsInfo = none := by decide
  intro i hi lib hlib
  cases (hnone i hi).symm.trans hlib

/-- A file that one run has scanned into. -/
theorem ls_sessionFile :
    SessionFile ownFile [lsAttach] (fun _ => Database.new) "a".toList ∧
      (afterSession ownFile [lsAttach] (fun _ => Database.new)
        "a".toList).present .vm = true := by
  have hclean : ∀ j ∈ scansInto ownFile "a".toList [lsAttach], j.Clean := by
    rw [lsAttach_scansInto, List.forall_mem_singleton]
    exact lsJob_clean
  have hfile := sessionFile ownFile
    (fun i hi => ls_session_quoteFree i (List.mem_cons_of_mem _ hi))
    (fun _ => Database.new) hclean
  refine ⟨hfile, (hfile.created (lsAttach_scansInto ▸ ls_creates) .vm
    (by decide)).2 (.inr ⟨lsJob, ?_, rfl, _, rfl⟩)⟩
  rw [lsAttach_scansInto]
  exact List.mem_singleton_self _

theorem fitsInt_empty : FitsInt Db.empty := by
  refine ⟨⟨?_, ?_⟩, ?_, ?_, ?_, ?_⟩
  · exact List.forall_mem_nil _
  · exact List.forall_mem_nil _
  all_goals decide

theorem ls_fitsInt : FitsInt (afterScans [lsJob] Db.empty) := by
  rw [afterScans, List.foldl_cons, List.foldl_nil, lsJob_clean.scanned_eq]
  refine ⟨⟨by decide +kernel, ?_⟩, by decide +kernel, by decide +kernel,
    by decide +kernel, by decide +kernel⟩
  have hrows : ∀ r ∈ (runAll lsJob.statements Db.empty).comparts.rows,
      IsInt r.compartId ∧ r.isDefault.all (fun i => IsInt i) ∧
        r.parentId.all fun i => IsInt i := by decide +kernel
  intro r hr
  obtain ⟨hid, hdefault, hparent⟩ := hrows r hr
  refine ⟨hid, fun i hi => ?_, fun i hi => ?_⟩
  · simpa [hi] using hdefault
  · simpa [hi] using hparent

end Chericat
