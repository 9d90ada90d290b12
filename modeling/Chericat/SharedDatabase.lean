import Chericat.CompartGraphs
import Chericat.ScanHistory
import Chericat.ViewRuns

/-!
What the views print of one scan in a database that other scans share.  The
counters of a block take in the capabilities of every scan, and a compartment
has the name that it was given last.
-/

namespace Chericat

/-! ### Counters -/

theorem countCaps_eq_zero_iff {test : CapInfo → Bool} {caps : List CapInfo} :
    countCaps test caps = .zero ↔ ∀ c ∈ caps, test c = false := by
  constructor
  · intro h c hc
    have hcount := congrArg CapCounts.outCapCount h
    rw [countCaps_outCapCount] at hcount
    simpa using List.countP_eq_zero.1 hcount c hc
  · intro h
    rw [countCaps]
    induction caps with
    | nil => rfl
    | cons c caps ih =>
        rw [List.forall_mem_cons] at h
        rw [List.foldl_cons, h.1]
        exact ih h.2

theorem CapCounts.add_eq_iff {a b c : CapCounts} :
    a + (b + c) = b ↔ a = .zero ∧ c = .zero := by
  obtain ⟨a₁, a₂, a₃, a₄, a₅⟩ := a
  obtain ⟨b₁, b₂, b₃, b₄, b₅⟩ := b
  obtain ⟨c₁, c₂, c₃, c₄, c₅⟩ := c
  simp only [CapCounts.add_def, CapCounts.zero, CapCounts.mk.injEq]
  omega

/-- The capabilities of other scans do not count when none passes the test. -/
theorem countCaps_others_iff {test : CapInfo → Bool}
    {before own later : List CapInfo} :
    countCaps test (before ++ (own ++ later)) = countCaps test own ↔
      ∀ c ∈ before ++ later, test c = false := by
  rw [countCaps_append, countCaps_append, CapCounts.add_eq_iff,
    countCaps_eq_zero_iff, countCaps_eq_zero_iff, List.forall_mem_append]

/-! ### What is printed -/

/-- The call without a share of all capabilities, which every row of `cap_info`
changes. -/
def XoCall.withoutShare : XoCall → XoCall
  | .emit fmt args => .emit fmt (args.filter fun
      | .percent _ _ => false
      | _ => true)
  | x => x

/-- What `vm_caps_view` prints for a row, the density apart. -/
def vmRowShown (env : ViewEnv) (db : Db) (row : VmInfo × CapCounts) :
    List XoCall :=
  (vmRowCalls env db.capInfo.length row).map XoCall.withoutShare

/-- What `comp_caps_view` prints for a row, the density apart. -/
def compRowShown (db : Db) (row : CompInfo × CapCounts) : List XoCall :=
  (compRowCalls db.capInfo.length row).map XoCall.withoutShare

theorem countFields_shown_iff {first last : String} {n n' : CapCounts}
    {total total' : Int} :
    (countFields first last n total).map XoCall.withoutShare =
        (countFields first last n' total').map XoCall.withoutShare ↔
      n = n' := by
  obtain ⟨out, ro, rw, rx, rwx⟩ := n
  obtain ⟨out', ro', rw', rx', rwx'⟩ := n'
  simp [countFields, xoInt, XoCall.withoutShare]
  tauto

theorem itemCalls_map (item : XoItem) (name : String) (xs : List XoCall) :
    (itemCalls item name xs).map XoCall.withoutShare =
      itemCalls item name (xs.map XoCall.withoutShare) := by
  simp [itemCalls, XoCall.withoutShare]

theorem itemCalls_inj {item : XoItem} {name : String} {xs ys : List XoCall} :
    itemCalls item name xs = itemCalls item name ys ↔ xs = ys := by
  simp [itemCalls]

/-- Of one block, the counters are all that can differ. -/
theorem vmRowShown_iff {env : ViewEnv} {db db' : Db} {v v' : VmInfo}
    {n n' : CapCounts} (h : v.toVmEntry = v'.toVmEntry) :
    vmRowShown env db (v, n) = vmRowShown env db' (v', n') ↔ n = n' := by
  have hhead : vmRowHead env v = vmRowHead env v' := by
    rw [vmRowHead, vmRowHead, h]
  have htail : vmRowTail env v = vmRowTail env v' := by
    rw [vmRowTail, vmRowTail, h]
  rw [vmRowShown, vmRowShown, vmRowCalls, vmRowCalls, itemCalls_map,
    itemCalls_map, itemCalls_inj]
  dsimp only
  rw [hhead, htail, List.map_append, List.map_append, List.map_append,
    List.map_append, List.append_cancel_left_eq, List.append_cancel_right_eq,
    countFields_shown_iff]

/-- The row of a compartment shows its id, its name and its counters. -/
theorem compRowShown_iff {db db' : Db} {row row' : CompInfo × CapCounts} :
    compRowShown db row = compRowShown db' row' ↔
      row.1.compartId = row'.1.compartId ∧
        row.1.compartName = row'.1.compartName ∧ row.2 = row'.2 := by
  rw [compRowShown, compRowShown, compRowCalls, compRowCalls, itemCalls_map,
    itemCalls_map, itemCalls_inj, List.map_append, List.map_append]
  have hlength : ((compRowHead row.1).map XoCall.withoutShare).length =
      ((compRowHead row'.1).map XoCall.withoutShare).length := by
    simp [compRowHead]
  have hhead : (compRowHead row.1).map XoCall.withoutShare =
      (compRowHead row'.1).map XoCall.withoutShare ↔
        row.1.compartId = row'.1.compartId ∧
          row.1.compartName = row'.1.compartName := by
    simp [compRowHead, xoInt, xoStr, XoCall.withoutShare]
    tauto
  rw [← and_assoc, ← hhead, ← countFields_shown_iff]
  exact ⟨fun h => List.append_inj h hlength, fun h => congrArg₂ _ h.1 h.2⟩

/-! ### The rows of a scan among those of others -/

theorem laterColumns_append (jobs later : List ScanJob) (r : VmInfo) :
    laterColumns later (laterColumns jobs r) =
      laterColumns (jobs ++ later) r := by
  simp only [laterColumns, VmInfo.withColumns, VmInfo.columns,
    lastWrite_append]
  cases lastWrite (fun j : ScanJob => j.columns r.mmapPath) later <;> rfl

theorem historyVm_append (jobs later : List ScanJob) :
    historyVm (jobs ++ later) =
      (historyVm jobs).map (laterColumns later) ++ historyVm later := by
  induction jobs with
  | nil => rfl
  | cons j jobs ih =>
      rw [List.cons_append, historyVm, historyVm, ih, List.map_append,
        List.map_map, List.append_assoc]
      exact congrArg (· ++ _) (List.map_congr_left fun r _ =>
        (laterColumns_append jobs later r).symm)

/-- What is left of a row under the name last given. -/
theorem lastRow_some {put : Option CompInfo} {r : CompInfo}
    {name : Option (Option Text)} (h : ∀ r', put = some r' → name.isSome) :
    lastRow put (some r) name =
      some ((put.getD r).rename (name.getD r.compartName)) := by
  rcases put with - | r'
  · rfl
  · obtain ⟨n, rfl⟩ := Option.isSome_iff_exists.1 (h r' rfl)
    rfl

/-! ### One scan among others -/

/-- A scan with those before and behind it. -/
structure Placed where
  before : List ScanJob
  job : ScanJob
  later : List ScanJob

namespace Placed

variable (p : Placed)

/-- The database that the scans fill. -/
def shared : Db := afterScans (p.before ++ p.job :: p.later) Db.empty

def others : List ScanJob := p.before ++ p.later

/-- The rows of `vm_caps_view` for the blocks of the scan. -/
def blocksShown : List (VmInfo × CapCounts) :=
  ((vmCapsView p.shared).drop (historyVm p.before).length).take
    p.job.own.vm.length

/-- Both views print for the scan what they would print for it alone, the
densities apart. -/
structure ShownAlone (env : ViewEnv) : Prop where
  blocks : p.blocksShown.map (vmRowShown env p.shared) =
    (vmCapsView p.job.own).map (vmRowShown env p.job.own)
  comparts : ∀ row ∈ compCapsView p.job.own, ∃ row' ∈ compCapsView p.shared,
    compRowShown p.shared row' = compRowShown p.job.own row

/-- The row that later scans put in the place of one of the scan, if any. -/
def laterPut (r : CompInfo) : Option CompInfo :=
  lastWrite (fun j => j.own.comparts.lookup r.compartId) p.later

/-- The compartments of the scan keep their ranges. -/
def KeepsRanges : Prop :=
  ∀ r ∈ p.job.own.comparts.rows, ∀ r', p.laterPut r = some r' →
    r'.startAddr = r.startAddr ∧ r'.endAddr = r.endAddr

/-- No later scan gives another name to a compartment, and no capability of
another scan counts for the rows. -/
structure Undisturbed : Prop where
  names : ∀ r ∈ p.job.own.comparts.rows, ∀ n,
    lastWrite (·.name r.compartId) p.later = some n → n = r.compartName
  blockCaps : ∀ v ∈ p.job.own.vm, ∀ j ∈ p.others, ∀ c ∈ j.own.capInfo,
    inVmBlock v.toVmEntry c.capLocAddr = false
  compartCaps : ∀ r ∈ p.job.own.comparts.rows, ∀ j ∈ p.others,
    ∀ c ∈ j.own.capInfo, inCompart r c = false

/-- The texts of all the scans are read as they are meant. -/
def Clean : Prop := ∀ j ∈ p.before ++ p.job :: p.later, j.Clean

variable {p}

theorem Clean.tables (h : p.Clean) : HistoryTables
    (p.before ++ p.job :: p.later) Db.empty p.shared :=
  historyTables (fun j hj => (h j hj).texts) Db.empty

theorem Clean.capInfo_shared (h : p.Clean) : p.shared.capInfo =
    p.before.flatMap (fun j => j.own.capInfo) ++ (p.job.own.capInfo ++
      p.later.flatMap fun j => j.own.capInfo) := by
  rw [h.tables.capInfo, List.flatMap_append, List.flatMap_cons]
  rfl

theorem Clean.blocksShown_eq (h : p.Clean) :
    p.blocksShown = p.job.own.vm.map fun v => (laterColumns p.later v,
      vmCounts p.shared.capInfo (laterColumns p.later v)) := by
  have hvm : p.shared.vm =
      (historyVm p.before).map (laterColumns (p.job :: p.later)) ++
        (p.job.own.vm.map (laterColumns p.later) ++ historyVm p.later) := by
    rw [h.tables.vm, historyVm_append, historyVm]
    rfl
  rw [blocksShown, vmCapsView, hvm, List.map_append, List.map_append]
  rw [List.drop_left' (by simp), List.take_left' (by simp), List.map_map]
  rfl

/-- The other scans add nothing to a counter. -/
theorem Clean.countCaps_shared_iff (h : p.Clean) {test : CapInfo → Bool} :
    countCaps test p.shared.capInfo = countCaps test p.job.own.capInfo ↔
      ∀ j ∈ p.others, ∀ c ∈ j.own.capInfo, test c = false := by
  rw [h.capInfo_shared, countCaps_others_iff, ← List.flatMap_append, others]
  simp only [List.mem_flatMap, forall_exists_index, and_imp]
  exact ⟨fun h j hj c hc => h c j hj hc, fun h c j hj hc => h j hj c hc⟩

theorem Clean.blocks_alone_iff (h : p.Clean) (env : ViewEnv) :
    p.blocksShown.map (vmRowShown env p.shared) =
        (vmCapsView p.job.own).map (vmRowShown env p.job.own) ↔
      ∀ v ∈ p.job.own.vm, ∀ j ∈ p.others, ∀ c ∈ j.own.capInfo,
        inVmBlock v.toVmEntry c.capLocAddr = false := by
  rw [h.blocksShown_eq, vmCapsView, List.map_map, List.map_map,
    List.map_inj_left]
  refine forall₂_congr fun v _ => ?_
  have hentry : (laterColumns p.later v).toVmEntry = v.toVmEntry := rfl
  exact (vmRowShown_iff hentry).trans h.countCaps_shared_iff

theorem Clean.lookup_shared (hp : p.Clean) {id : Int} {r : CompInfo}
    (h : p.job.own.comparts.lookup id = some r) :
    p.shared.comparts.lookup id = historyRow p.later id (some r) := by
  have hscans : p.before ++ p.job :: p.later =
      (p.before ++ [p.job]) ++ p.later := by simp
  have hsplit : ∀ j ∈ (p.before ++ [p.job]) ++ p.later, j.Clean := by
    rw [← hscans]
    exact hp
  rw [List.forall_mem_append] at hsplit
  have hjob : p.job.Clean := hsplit.1 p.job (by simp)
  rw [shared, hscans, afterScans, List.foldl_append]
  refine (lookup_afterScans hsplit.2 _ id).trans ?_
  refine congrArg _ ((lookup_afterScans hsplit.1 _ id).trans ?_)
  rw [historyRow, lastWrite_concat, lastWrite_concat, h, hjob.name_of_lookup h]
  rfl

/-- A row that was put has given a name. -/
theorem Clean.name_of_laterPut (hp : p.Clean) {r r' : CompInfo}
    (h : p.laterPut r = some r') :
    (lastWrite (fun j : ScanJob => j.name r.compartId) p.later).isSome := by
  obtain ⟨before, j, after, hsplit, hj, -⟩ := lastWrite_eq_some_iff.1 h
  have hclean : j.Clean := hp j (by simp [hsplit])
  by_contra hnone
  rw [Option.not_isSome_iff_eq_none, lastWrite_eq_none_iff] at hnone
  have hname := hnone j (by simp [hsplit])
  rw [hclean.name_of_lookup hj] at hname
  cases hname

/-- The row of the shared database for a compartment of the scan. -/
theorem Clean.lookup_row (hp : p.Clean) {r : CompInfo}
    (hr : r ∈ p.job.own.comparts.rows) :
    p.shared.comparts.lookup r.compartId =
      some (((p.laterPut r).getD r).rename
        ((lastWrite (·.name r.compartId) p.later).getD r.compartName)) := by
  rw [hp.lookup_shared ((Comparts.mem_rows_iff _ _).1 hr)]
  exact lastRow_some fun r' h => hp.name_of_laterPut h

theorem Clean.comparts_alone_iff (hp : p.Clean) (hranges : p.KeepsRanges) :
    (∀ row ∈ compCapsView p.job.own, ∃ row' ∈ compCapsView p.shared,
        compRowShown p.shared row' = compRowShown p.job.own row) ↔
      ∀ r ∈ p.job.own.comparts.rows,
        (∀ n, lastWrite (·.name r.compartId) p.later = some n →
          n = r.compartName) ∧
        ∀ j ∈ p.others, ∀ c ∈ j.own.capInfo, inCompart r c = false := by
  rw [compCapsView, compCapsView, List.forall_mem_map]
  refine forall₂_congr fun r hr => ?_
  have hlookup := hp.lookup_row hr
  generalize hleft : ((p.laterPut r).getD r).rename
    ((lastWrite (·.name r.compartId) p.later).getD r.compartName) = left
      at hlookup
  have hid := Comparts.compartId_of_lookup hlookup
  have hspan : left.startAddr = r.startAddr ∧ left.endAddr = r.endAddr := by
    rw [← hleft]
    cases hput : p.laterPut r with
    | none => exact ⟨rfl, rfl⟩
    | some r' => exact hranges r hr r' hput
  have htest : inCompart left = inCompart r := by
    funext c
    rw [inCompart, inCompart, hspan.1, hspan.2]
  have hname : left.compartName = r.compartName ↔
      ∀ n, lastWrite (·.name r.compartId) p.later = some n →
        n = r.compartName := by
    rw [← hleft]
    cases lastWrite (fun j : ScanJob => j.name r.compartId) p.later <;>
      simp [CompInfo.rename]
  have hown : compCounts p.job.own.capInfo r =
      countCaps (inCompart left) p.job.own.capInfo := by
    rw [compCounts, htest]
  rw [← hname, ← hp.countCaps_shared_iff, ← htest]
  constructor
  · rintro ⟨row', hrow', hshown⟩
    obtain ⟨r', hr', rfl⟩ := List.mem_map.1 hrow'
    obtain ⟨hid', hname', hcounts⟩ := compRowShown_iff.1 hshown
    -- the row with this id is the one that is left
    have hsame := (Comparts.mem_rows_iff _ _).1 hr'
    rw [show r'.compartId = r.compartId from hid', hlookup,
      Option.some.injEq] at hsame
    subst hsame
    exact ⟨hname', hcounts.trans hown⟩
  · rintro ⟨hname', hcounts⟩
    refine ⟨(left, compCounts p.shared.capInfo left),
      List.mem_map_of_mem ?_, compRowShown_iff.2 ⟨hid, hname', ?_⟩⟩
    · rwa [Comparts.mem_rows_iff, hid]
    · exact hcounts.trans hown.symm

/-- Where the compartments keep their ranges, the views print a scan of a shared
database as they would print it alone, the densities apart, exactly when no
later scan has last given another name to its compartments and no capability of
any other scan lies in its blocks and compartments. -/
theorem shownAlone_iff (env : ViewEnv) (hp : p.Clean)
    (hranges : p.KeepsRanges) : p.ShownAlone env ↔ p.Undisturbed := by
  constructor
  · rintro ⟨hblocks, hcomparts⟩
    rw [hp.blocks_alone_iff] at hblocks
    rw [hp.comparts_alone_iff hranges] at hcomparts
    exact ⟨fun r hr => (hcomparts r hr).1, hblocks,
      fun r hr => (hcomparts r hr).2⟩
  · rintro ⟨hnames, hblocks, hcomparts⟩
    exact ⟨(hp.blocks_alone_iff env).2 hblocks,
      (hp.comparts_alone_iff hranges).2 fun r hr =>
        ⟨hnames r hr, hcomparts r hr⟩⟩

end Placed

/-- A scan of a small process, and one behind it. -/
def lsPlaced : Placed := ⟨[], lsJob, [strandedJob]⟩

/-- The capability that the second scan has left behind lies in a block of the
first. -/
theorem ls_disturbed :
    lsPlaced.KeepsRanges ∧ ∀ env, ¬ lsPlaced.ShownAlone env := by
  have hranges : lsPlaced.KeepsRanges := by
    intro r _ r' hr'
    rw [Placed.laterPut, lsPlaced, lastWrite_cons, strandedJob_own] at hr'
    cases hr'
  have hclean : lsPlaced.Clean := ls_jobs_clean
  refine ⟨hranges, fun env halone => ?_⟩
  have hblocks := ((Placed.shownAlone_iff env hclean hranges).1
    halone).blockCaps
  have hstray : ∃ v ∈ lsJob.own.vm, ∃ c ∈ strandedJob.own.capInfo,
      inVmBlock v.toVmEntry c.capLocAddr = true := by
    rw [lsJob_own, strandedJob_own]
    decide +kernel
  obtain ⟨v, hv, c, hc, hin⟩ := hstray
  have hout := hblocks v hv strandedJob (List.mem_singleton_self _) c hc
  rw [hin] at hout
  cases hout

end Chericat
