import Chericat.CapsViews
import Chericat.ScanTexts

/-!
Two scans of one unchanging target into the same database, chericat's
uninitialised variables holding the same in both.  Rows of `comparts` replace
each other; the rows of the other tables accumulate, and the section columns
are overwritten by what is already there.
-/

namespace Chericat

/-! ### `comparts` -/

/-- What a statement does to the row with a given id. -/
def Statement.onRow (id : Int) (row : Option CompInfo) :
    Statement → Option CompInfo
  | .replaceDefault c => if id = c.compartId then some c.row else row
  | .replaceSubcompart c => if id = c.compartId then some c.row else row
  | .updateCompartName name i =>
      if id = i then row.map (CompInfo.rename (some name)) else row
  | _ => row

theorem Comparts.compartId_of_lookup {cs : Comparts} {id : Int}
    {r : CompInfo} (h : cs.lookup id = some r) : r.compartId = id := by
  simpa using List.find?_some h

theorem lookup_runComparts (cs : Comparts) (s : Statement) (id : Int) :
    (s.runComparts cs).lookup id = s.onRow id (cs.lookup id) := by
  cases s with
  | replaceDefault c => exact Comparts.lookup_replace c.row cs id
  | replaceSubcompart c => exact Comparts.lookup_replace c.row cs id
  | updateCompartName name i =>
      rw [Statement.runComparts, Comparts.lookup_updateName, Statement.onRow]
      cases hrow : cs.lookup id with
      | none => simp
      | some r =>
          have hid := Comparts.compartId_of_lookup hrow
          by_cases hi : id = i
          · simp [Comparts.setName, CompInfo.rename, hid, hi]
          · simp [Comparts.setName, hid, hi]
  | _ => rfl

theorem lookup_foldl_runComparts (ss : List Statement) (cs : Comparts)
    (id : Int) :
    (ss.foldl Statement.runComparts cs).lookup id =
      ss.foldl (Statement.onRow id) (cs.lookup id) := by
  induction ss generalizing cs with
  | nil => rfl
  | cons s ss ih => rw [List.foldl_cons, List.foldl_cons, ih, lookup_runComparts]

/-- What a sequence of writes does to a row: nothing, or it puts another row
in its place, or it gives it a name. -/
inductive RowEffect : (Option CompInfo → Option CompInfo) → Prop where
  | keep : RowEffect fun row => row
  | put (r : CompInfo) : RowEffect fun _ => some r
  | name (n : Text) : RowEffect (Option.map (CompInfo.rename (some n)))

theorem RowEffect.onRow {f : Option CompInfo → Option CompInfo}
    (hf : RowEffect f) (id : Int) (s : Statement) :
    RowEffect fun row => s.onRow id (f row) := by
  cases s with
  | replaceDefault c =>
      by_cases hid : id = c.compartId
      · simpa [Statement.onRow, hid] using RowEffect.put c.row
      · simpa [Statement.onRow, hid] using hf
  | replaceSubcompart c =>
      by_cases hid : id = c.compartId
      · simpa [Statement.onRow, hid] using RowEffect.put c.row
      · simpa [Statement.onRow, hid] using hf
  | updateCompartName n i =>
      by_cases hid : id = i
      · simp only [Statement.onRow, hid, if_true]
        cases hf with
        | keep => exact .name n
        | put r => exact .put (r.rename (some n))
        | name m =>
            have hlast : (fun row : Option CompInfo =>
                (row.map (CompInfo.rename (some m))).map
                  (CompInfo.rename (some n))) =
                Option.map (CompInfo.rename (some n)) := by
              funext row
              cases row <;> rfl
            rw [hlast]
            exact .name n
      · simpa [Statement.onRow, hid] using hf
  | _ => exact hf

theorem rowEffect_foldl (id : Int) (ss : List Statement)
    {f : Option CompInfo → Option CompInfo} (hf : RowEffect f) :
    RowEffect fun row => ss.foldl (Statement.onRow id) (f row) := by
  induction ss generalizing f with
  | nil => exact hf
  | cons s ss ih => exact ih (hf.onRow id s)

theorem RowEffect.idempotent {f : Option CompInfo → Option CompInfo}
    (hf : RowEffect f) (row : Option CompInfo) : f (f row) = f row := by
  cases hf with
  | keep => rfl
  | put r => rfl
  | name n => cases row <;> rfl

/-- Running the same statements again leaves `comparts` as it is. -/
theorem foldl_runComparts_idem (ss : List Statement) (cs : Comparts) :
    ss.foldl Statement.runComparts (ss.foldl Statement.runComparts cs) =
      ss.foldl Statement.runComparts cs := by
  apply Comparts.ext_lookup
  intro id
  rw [lookup_foldl_runComparts, lookup_foldl_runComparts]
  exact (rowEffect_foldl id ss .keep).idempotent _

/-! ### The section columns of `vm` -/

def Statement.onSections (r : VmInfo) : Statement → VmInfo
  | .updateVm u => u.apply r
  | _ => r

/-- What a sequence of statements does to the columns of an old row. -/
def sectionColumns (ss : List Statement) (r : VmInfo) : VmInfo :=
  ss.foldl Statement.onSections r

theorem foldl_runVm (ss : List Statement) (vm : List VmInfo) :
    ss.foldl Statement.runVm vm =
      vm.map (sectionColumns ss) ++ ss.foldl Statement.runVm [] := by
  induction ss generalizing vm with
  | nil =>
      change vm = vm.map (fun r => r) ++ []
      simp
  | cons s ss ih =>
      rw [List.foldl_cons, List.foldl_cons, ih, ih (s.runVm [])]
      cases s <;> simp [Statement.runVm, sectionColumns, Statement.onSections]

theorem toVmEntry_onSections (s : Statement) (r : VmInfo) :
    (s.onSections r).toVmEntry = r.toVmEntry := by
  cases s with
  | updateVm u => exact toVmEntry_apply u r
  | _ => rfl

theorem toVmEntry_sectionColumns (ss : List Statement) (r : VmInfo) :
    (sectionColumns ss r).toVmEntry = r.toVmEntry := by
  induction ss generalizing r with
  | nil => rfl
  | cons s ss ih => exact (ih _).trans (toVmEntry_onSections s r)

/-- Two rows of one path get the same columns, or keep their own. -/
theorem onSections_cases (s : Statement) (r r' : VmInfo)
    (h : r'.toVmEntry = r.toVmEntry) :
    s.onSections r' = s.onSections r ∨
      s.onSections r' = r' ∧ s.onSections r = r := by
  cases s with
  | updateVm u =>
      obtain ⟨e, plt, plts, got, gots⟩ := r
      obtain ⟨e', plt', plts', got', gots'⟩ := r'
      cases h
      by_cases hpath : e.mmapPath = u.mmapPath
      · exact Or.inl (by simp [Statement.onSections, SectionUpdate.apply, hpath])
      · exact Or.inr (by simp [Statement.onSections, SectionUpdate.apply, hpath])
  | _ => exact Or.inr ⟨rfl, rfl⟩

theorem sectionColumns_cases (ss : List Statement) (r r' : VmInfo)
    (h : r'.toVmEntry = r.toVmEntry) :
    sectionColumns ss r' = sectionColumns ss r ∨
      sectionColumns ss r' = r' ∧ sectionColumns ss r = r := by
  induction ss generalizing r r' with
  | nil => exact Or.inr ⟨rfl, rfl⟩
  | cons s ss ih =>
      change sectionColumns ss _ = sectionColumns ss _ ∨
        sectionColumns ss _ = _ ∧ sectionColumns ss _ = _
      rcases onSections_cases s r r' h with heq | ⟨hr', hr⟩
      · exact Or.inl (by rw [heq])
      · rw [hr', hr]
        exact ih r r' h

/-- Overwriting the columns again changes nothing. -/
theorem sectionColumns_idem (ss : List Statement) (r : VmInfo) :
    sectionColumns ss (sectionColumns ss r) = sectionColumns ss r := by
  rcases sectionColumns_cases ss r (sectionColumns ss r)
    (toVmEntry_sectionColumns ss r) with heq | ⟨heq, _⟩
  · exact heq
  · exact heq

/-! ### Two scans -/

/-- The statements of a scan. -/
def scanStatements (t : Target) : List Statement :=
  statements (scanMem t).trace

/-- The rows of one scan already have the columns that the next one would
write into them. -/
theorem sectionColumns_own_rows (t : Target) :
    (dbAfter t Db.empty).vm.map (sectionColumns (scanStatements t)) =
      (dbAfter t Db.empty).vm := by
  cases hscan : (scanMem t).outcome with
  | error s =>
      have hnone : (dbAfter t Db.empty).vm = [] := by
        rw [dbAfter, runAll_eq, (spare_vm_of_error hscan).runVm]
        rfl
      rw [hnone, List.map_nil]
  | ok u =>
      obtain ⟨map, hmap⟩ := exists_map_of_ok hscan
      obtain ⟨c⟩ := exists_completedScan hmap hscan
      -- on a database of one row, both descriptions of the scan apply
      have hcolumns : sectionColumns (scanStatements t) =
          applyUpdates c.final.ssect := by
        funext r
        have hleft : (dbAfter t ⟨[r], [], [], Comparts.empty⟩).vm =
            [r].map (sectionColumns (scanStatements t)) ++
              (dbAfter t Db.empty).vm := by
          rw [dbAfter, dbAfter, runAll_eq, runAll_eq]
          exact foldl_runVm _ [r]
        rw [c.dbAfter_eq hmap hscan, c.dbAfter_eq hmap hscan] at hleft
        simpa [Db.empty] using hleft.symm
      rw [hcolumns, c.dbAfter_eq hmap hscan, List.map_map, ← hcolumns]
      congr 1
      funext r
      exact sectionColumns_idem _ r

/-! ### Counters add up -/

instance : Add CapCounts where
  add n m :=
    { outCapCount := n.outCapCount + m.outCapCount
      roCount := n.roCount + m.roCount
      rwCount := n.rwCount + m.rwCount
      rxCount := n.rxCount + m.rxCount
      rwxCount := n.rwxCount + m.rwxCount }

theorem CapCounts.add_def (n m : CapCounts) :
    n + m = ⟨n.outCapCount + m.outCapCount, n.roCount + m.roCount,
      n.rwCount + m.rwCount, n.rxCount + m.rxCount,
      n.rwxCount + m.rwxCount⟩ := rfl

theorem CapCounts.add_count (n m : CapCounts) (perms : Text) :
    n + m.count perms = (n + m).count perms := by
  simp only [CapCounts.add_def, CapCounts.count, CapCounts.mk.injEq]
  refine ⟨by omega, ?_, ?_, ?_, ?_⟩ <;> split <;> omega

/-- The counters of two lists of capabilities are the sums of their
counters. -/
theorem countCaps_append (test : CapInfo → Bool) (caps more : List CapInfo) :
    countCaps test (caps ++ more) =
      countCaps test caps + countCaps test more := by
  have hfold : ∀ n m : CapCounts,
      more.foldl (fun n c => if test c then n.count c.perms else n) (n + m) =
        n + more.foldl (fun n c => if test c then n.count c.perms else n) m := by
    induction more with
    | nil => exact fun n m => rfl
    | cons c cs ih =>
        intro n m
        rw [List.foldl_cons, List.foldl_cons, ← ih]
        split
        · rw [CapCounts.add_count]
        · rfl
  rw [countCaps, List.foldl_append]
  exact hfold (countCaps test caps) .zero

theorem dbAfter_dbAfter (t : Target) (db : Db) :
    let once := dbAfter t Db.empty
    let twice := dbAfter t (dbAfter t db)
    twice.comparts = (dbAfter t db).comparts ∧
      twice.capInfo = db.capInfo ++ once.capInfo ++ once.capInfo ∧
      twice.elfSym = db.elfSym ++ once.elfSym ++ once.elfSym ∧
      twice.vm = db.vm.map (sectionColumns (scanStatements t)) ++ once.vm ++
        once.vm ∧
      (∀ v, vmCounts twice.capInfo v = vmCounts db.capInfo v +
        vmCounts once.capInfo v + vmCounts once.capInfo v) ∧
      ∀ r, compCounts twice.capInfo r = compCounts db.capInfo r +
        compCounts once.capInfo r + compCounts once.capInfo r := by
  intro once twice
  have hcaps : twice.capInfo = db.capInfo ++ once.capInfo ++ once.capInfo := by
    simp only [twice, once, dbAfter, runAll_eq, Db.empty, List.nil_append]
  refine ⟨?_, hcaps, ?_, ?_, ?_, ?_⟩
  · simp only [twice, dbAfter, runAll_eq]
    exact foldl_runComparts_idem _ _
  · simp only [twice, once, dbAfter, runAll_eq, Db.empty, List.nil_append]
  · have hvm : ∀ db, (dbAfter t db).vm =
        db.vm.map (sectionColumns (scanStatements t)) ++ once.vm := by
      intro db
      simp only [once, dbAfter, runAll_eq]
      exact foldl_runVm _ _
    have hcolumns : sectionColumns (scanStatements t) ∘
        sectionColumns (scanStatements t) =
          sectionColumns (scanStatements t) :=
      funext fun r => sectionColumns_idem _ r
    rw [hvm, hvm, List.map_append, List.map_map, hcolumns]
    exact congrArg (_ ++ · ++ once.vm) (sectionColumns_own_rows t)
  · intro v
    rw [hcaps]
    simp only [vmCounts, countCaps_append]
  · intro r
    rw [hcaps]
    simp only [compCounts, countCaps_append]

/-- A second scan of the same target leaves `comparts` as the first one left
it, and adds the rows of one scan on empty tables to the other tables once
more; both views count them twice. -/
theorem rescan {t : Target} (hclean : t.Clean) (harray : t.CleanArray)
    (db : Db) :
    let once := dbScanned t Db.empty
    let twice := dbScanned t (dbScanned t db)
    twice.comparts = (dbScanned t db).comparts ∧
      twice.capInfo = db.capInfo ++ once.capInfo ++ once.capInfo ∧
      twice.elfSym = db.elfSym ++ once.elfSym ++ once.elfSym ∧
      twice.vm = db.vm.map (sectionColumns (scanStatements t)) ++ once.vm ++
        once.vm ∧
      (∀ v, vmCounts twice.capInfo v = vmCounts db.capInfo v +
        vmCounts once.capInfo v + vmCounts once.capInfo v) ∧
      ∀ r, compCounts twice.capInfo r = compCounts db.capInfo r +
        compCounts once.capInfo r + compCounts once.capInfo r := by
  simpa only [dbScanned_eq hclean harray] using dbAfter_dbAfter t db

/-- One block with one capability. -/
def rescannedTarget : Target :=
  Target.sample [.sample 0x40000 0x41000] fun _ =>
    { tags := fun _ => some (.ofFirst 1)
      cap := fun _ =>
        ⟨true, ⟨0x40000, "rwRW".toList, 0x40000, 0x41000, none⟩⟩ }

theorem rescannedTarget_clean : rescannedTarget.Clean :=
  sample_clean (by decide) fun _ _ =>
    (by decide : SqlText.QuoteFree "rwRW".toList)

/-- The scans of the small process add up. -/
theorem rescan_sample :
    (dbScanned rescannedTarget
      (dbScanned rescannedTarget Db.empty)).capInfo =
        (dbScanned rescannedTarget Db.empty).capInfo ++
          (dbScanned rescannedTarget Db.empty).capInfo := by
  have hempty : Db.empty.capInfo = [] := rfl
  have hrescan := rescan rescannedTarget_clean (sample_cleanArray _ _) Db.empty
  dsimp only at hrescan
  rw [hrescan.2.1, hempty, List.nil_append]

/-- Scanned twice, the block is listed twice and its capability is counted
twice. -/
theorem rescanned_twice :
    let once := dbScanned rescannedTarget Db.empty
    let twice := dbScanned rescannedTarget once
    (scanMem rescannedTarget).outcome = .ok ⟨⟩ ∧
      ¬ twice.vm.Perm once.vm ∧ ¬ twice.capInfo.Perm once.capInfo ∧
      (vmCapsView once).map (fun r => r.2.outCapCount) = [1] ∧
      (vmCapsView twice).map (fun r => r.2.outCapCount) = [2, 2] := by
  have hscanned := dbScanned_eq rescannedTarget_clean (sample_cleanArray _ _)
  have hrun :
      let once := dbAfter rescannedTarget Db.empty
      let twice := dbAfter rescannedTarget once
      (scanMem rescannedTarget).outcome = .ok ⟨⟩ ∧
        ¬ twice.vm.Perm once.vm ∧ ¬ twice.capInfo.Perm once.capInfo ∧
        (vmCapsView once).map (fun r => r.2.outCapCount) = [1] ∧
        (vmCapsView twice).map (fun r => r.2.outCapCount) = [2, 2] := by
    decide +kernel
  simpa only [hscanned] using hrun

end Chericat
