import Chericat.TableConsistency

/-!
A scan that stops early.  Nothing is undone: each statement that succeeded
before the stop keeps its effect, one that failed has none and does not stop
the scan, and the rows of `vm` are only sent after the last point where the
scan can stop.
-/

namespace Chericat

/-- The statements that succeed, `ok` telling which. -/
def succeeded (ok : Nat → Bool) (ss : List Statement) : List Statement :=
  (ss.zipIdx.filter fun s => ok s.2).map Prod.fst

/-- The database after a scan whose statements succeed or fail as `ok`
tells. -/
def dbAfterSome (ok : Nat → Bool) (t : Target) (db : Db) : Db :=
  runAll (succeeded ok (statements (scanMem t).trace)) db

theorem mem_of_mem_succeeded {ok : Nat → Bool} {ss : List Statement}
    {s : Statement} (h : s ∈ succeeded ok ss) : s ∈ ss := by
  obtain ⟨p, hp, rfl⟩ := List.mem_map.mp h
  exact List.fst_mem_of_mem_zipIdx (List.mem_of_mem_filter hp)

theorem Spare.succeeded {tb : Table} {ss : List Statement} (h : Spare tb ss)
    (ok : Nat → Bool) : Spare tb (succeeded ok ss) :=
  fun s hs => h s (mem_of_mem_succeeded hs)

/-- A statement that touches no table. -/
theorem run_eq_self {s : Statement} (h : s.writes = none) (db : Db) :
    s.run db = db := by
  cases s <;> first | rfl | cases h

theorem runAll_eq_self {ss : List Statement}
    (h : ∀ s ∈ ss, s.writes = none) (db : Db) : runAll ss db = db := by
  induction ss with
  | nil => rfl
  | cons s ss ih =>
      rw [runAll_cons, run_eq_self (h s List.mem_cons_self)]
      exact ih fun s hs => h s (List.mem_cons_of_mem _ hs)

theorem writes_eq_none_of_spare {s : Statement}
    (h : ∀ tb, s.writes ≠ some tb) : s.writes = none := by
  cases hs : s.writes with
  | none => rfl
  | some tb => exact absurd hs (h tb)

theorem exists_ne_table (tb : Table) : ∃ other, other ≠ tb := by
  by_cases h : tb = .vm
  · exact ⟨.capInfo, by simp [h]⟩
  · exact ⟨.vm, Ne.symm h⟩

/-! ### Everything up to the rows of `vm` -/

/-- The scan of a map up to the end of the block loop. -/
def scanBlocks (t : Target) (map : List KinfoVmentry) : Scan ScanState := do
  createTables
  let debug ← getRDebug t
  let comparts ← scanRtldLinkmap t debug
  let _ ← scanRComparts t debug
  Run.loop (scanEntry t comparts) ScanState.start map.zipIdx

theorem scanMap_eq (t : Target) (map : List KinfoVmentry) :
    scanMap t map = (do
      let st ← scanBlocks t map
      insertVmEntries t st.values
      Run.loop updateStep ⟨⟩ st.ssect) := by
  simp only [scanMap, scanBlocks, bind_assoc]

theorem spares_scanBlocks (t : Target) (map : List KinfoVmentry) :
    Run.Emits (Event.Spares .vm) (scanBlocks t map) := by
  have hcomparts : Table.comparts ≠ .vm := nofun
  have hsym : Table.elfSym ≠ .vm := nofun
  have hcap : Table.capInfo ≠ .vm := nofun
  exact (spares_of_writes writes_createTables hcomparts).bind fun _ =>
    (spares_of_writes (writes_getRDebug t) hcomparts).bind fun debug =>
    (spares_of_writes (writes_scanRtldLinkmap t debug) hcomparts).bind
      fun comparts =>
    (spares_of_writes (writes_scanRComparts t debug) hcomparts).bind fun _ =>
    Run.Emits.loop (fun st entry =>
      spares_scanEntry t comparts st entry hsym hcap) _ _

/-- Without an entry, or in a scan that stops before, no row is sent to
`vm`. -/
theorem spare_insertVmEntries {t : Target} {values : List VmEntry} {s : Stop}
    (h : (insertVmEntries t values).outcome = .error s) :
    Run.Emits (Event.Spares .vm) (insertVmEntries t values) := by
  rw [insertVmEntries] at h ⊢
  split at h
  · cases h
  · next hnil =>
      rw [dif_neg hnil]
      have hother : Table.elfSym ≠ .vm := by decide
      exact spares_of_writes (fun e he =>
        (((@within_send false .elfSym vmHdr t.pendingVm).bind fun _ =>
          within_free _) e he).writesOnly) hother

theorem spare_scanMap_error {t : Target} {map : List KinfoVmentry} {s : Stop}
    (h : (scanMap t map).outcome = .error s) :
    Run.Emits (Event.Spares .vm) (scanMap t map) := by
  rw [scanMap_eq] at h ⊢
  cases hst : (scanBlocks t map).outcome with
  | error s' =>
      rw [Run.bind_error hst]
      exact spares_scanBlocks t map
  | ok st =>
      rw [Run.outcome_bind_ok hst] at h
      cases hsent : (insertVmEntries t st.values).outcome with
      | ok u =>
          -- what follows the rows of `vm` never stops
          rw [Run.outcome_bind_ok hsent, loop_updateStep] at h
          cases h
      | error s' =>
          intro e he
          rw [Run.trace_bind_ok hst, Run.bind_error hsent] at he
          rcases List.mem_append.1 he with he | he
          · exact spares_scanBlocks t map e he
          · exact spare_insertVmEntries hsent e he

/-- A scan that stops has sent nothing to `vm`. -/
theorem spare_vm_of_error {t : Target} {s : Stop}
    (h : (scanMem t).outcome = .error s) :
    Spare .vm (statements (scanMem t).trace) := by
  rw [scanMem] at h ⊢
  split
  · exact List.forall_mem_nil _
  · next pcnt hprocs =>
      simp only [hprocs] at h
      split
      · exact List.forall_mem_nil _
      · next hone =>
          rw [if_neg hone] at h
          split
          · exact List.forall_mem_nil _
          · next map hmap =>
              simp only [hmap] at h
              exact spare_statements (spare_scanMap_error h)

/-- A scan that does not get past the search for `r_debug`. -/
def StopsInSearch (t : Target) : Prop :=
  t.procs ≠ some 1 ∨ t.vmmap = none ∨ ¬ Run.Succeeds (getRDebug t)

theorem writes_none_of_stopsInSearch {t : Target} (h : StopsInSearch t) :
    ∀ s ∈ statements (scanMem t).trace, s.writes = none := by
  rw [scanMem]
  split
  · exact List.forall_mem_nil _
  · next pcnt hprocs =>
      split
      · exact List.forall_mem_nil _
      · next hone =>
          split
          · exact List.forall_mem_nil _
          · next map hmap =>
              have hsearch := (h.resolve_left (by
                simpa [hprocs] using hone)).resolve_left (by simp [hmap])
              obtain ⟨s, hs⟩ := Run.not_succeeds_iff.1 hsearch
              rw [scanMap, Run.trace_bind_ok createTables_ok, Run.bind_error hs,
                statements_append]
              intro s hs
              apply writes_eq_none_of_spare
              intro tb
              -- each table is spared by a stage that could only write another
              obtain ⟨other, hne⟩ := exists_ne_table tb
              rcases List.mem_append.mp hs with hs | hs
              · exact spare_statements
                  (spares_of_writes (@writes_createTables other) hne) s hs
              · exact spare_statements
                  (spares_of_writes (@writes_getRDebug other t) hne) s hs

/-- After an early stop each table holds what it held, changed by exactly the
statements that succeeded before the stop; `vm` is unchanged, and so is
everything when the scan did not get past `get_r_debug`. -/
theorem dbAfterSome_error (ok : Nat → Bool) (t : Target) (db : Db) {s : Stop}
    (h : (scanMem t).outcome = .error s) :
    dbAfterSome ok t db =
        { vm := db.vm
          capInfo := db.capInfo ++
            (succeeded ok (statements (scanMem t).trace)).flatMap
              Statement.capRows
          elfSym := db.elfSym ++
            (succeeded ok (statements (scanMem t).trace)).flatMap
              Statement.symRows
          comparts := (succeeded ok (statements (scanMem t).trace)).foldl
            Statement.runComparts db.comparts } ∧
      (StopsInSearch t → dbAfterSome ok t db = db) := by
  constructor
  · rw [dbAfterSome, runAll_eq, ((spare_vm_of_error h).succeeded ok).runVm]
  · intro hsearch
    exact runAll_eq_self (fun s hs =>
      writes_none_of_stopsInSearch hsearch s (mem_of_mem_succeeded hs)) db

end Chericat
