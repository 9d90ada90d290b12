import Chericat.ScanStages

/-!
The tables a completed scan leaves behind: `vm` describes the map entry by
entry, and every row of `cap_info` belongs to one block of it.
-/

namespace Chericat

open Numeral

/-! ### A completed scan, stage by stage -/

/-- The values that the stages of a completed scan hand on. -/
structure CompletedScan (t : Target) (map : List KinfoVmentry) where
  debug : RDebug
  comparts : List CompartData
  names : List (Option Text)
  final : ScanState
  debug_eq : (getRDebug t).outcome = .ok debug
  comparts_eq : (scanRtldLinkmap t debug).outcome = .ok comparts
  names_eq : (scanRComparts t debug).outcome = .ok names
  final_eq : (Run.loop (scanEntry t comparts) .start map.zipIdx).outcome =
    .ok final
  sent_eq : (insertVmEntries t final.values).outcome = .ok ⟨⟩

theorem scanMem_eq_scanMap {t : Target} {map : List KinfoVmentry}
    (hmap : t.vmmap = some map) (h : (scanMem t).outcome = .ok ⟨⟩) :
    scanMem t = scanMap t map := by
  rw [scanMem] at h ⊢
  cases hprocs : t.procs with
  | none => simp [hprocs] at h
  | some pcnt =>
      by_cases hone : pcnt ≠ 1
      · simp [hprocs, hone] at h
      · simp [hone, hmap]

/-- A scan that returns had a map. -/
theorem exists_map_of_ok {t : Target} {u : PUnit}
    (h : (scanMem t).outcome = .ok u) : ∃ map, t.vmmap = some map := by
  rw [scanMem] at h
  split at h
  · cases h
  · split at h
    · cases h
    · split at h
      · cases h
      · next map hmap => exact ⟨map, hmap⟩

theorem exists_completedScan {t : Target} {map : List KinfoVmentry}
    (hmap : t.vmmap = some map) (h : (scanMem t).outcome = .ok ⟨⟩) :
    Nonempty (CompletedScan t map) := by
  rw [scanMem_eq_scanMap hmap h, scanMap] at h
  obtain ⟨_, _, h⟩ := Run.bind_eq_ok h
  obtain ⟨debug, hdebug, h⟩ := Run.bind_eq_ok h
  obtain ⟨comparts, hcomparts, h⟩ := Run.bind_eq_ok h
  obtain ⟨names, hnames, h⟩ := Run.bind_eq_ok h
  obtain ⟨final, hfinal, h⟩ := Run.bind_eq_ok h
  obtain ⟨_, hsent, _⟩ := Run.bind_eq_ok h
  exact ⟨⟨debug, comparts, names, final, hdebug, hcomparts, hnames, hfinal,
    hsent⟩⟩

/-- The statements of the block loop. -/
def CompletedScan.blocks {t : Target} {map : List KinfoVmentry}
    (c : CompletedScan t map) : List Statement :=
  statements (Run.loop (scanEntry t c.comparts) .start map.zipIdx).trace

/-- The statements before the block loop. -/
def CompletedScan.before {t : Target} {map : List KinfoVmentry}
    (c : CompletedScan t map) : List Statement :=
  statements createTables.trace ++ statements (getRDebug t).trace ++
    statements (scanRtldLinkmap t c.debug).trace ++
    statements (scanRComparts t c.debug).trace

def CompletedScan.after {t : Target} {map : List KinfoVmentry}
    (c : CompletedScan t map) : List Statement :=
  statements (insertVmEntries t c.final.values).trace ++
    c.final.ssect.map fun r => .updateVm (sectionUpdate r)

/-- Rows are sent, and a list without any as long as `NULL` stands for it. -/
theorem insertVmEntries_ok {t : Target} {values : List VmEntry}
    (h : values ≠ [] ∨ t.pendingVm = .null) :
    (insertVmEntries t values).outcome = .ok ⟨⟩ := by
  rw [insertVmEntries]
  split
  · rfl
  · next hnil => rw [h.resolve_left hnil]; rfl

theorem loop_updateStep (ssect : List SpecialSections) :
    Run.loop updateStep ⟨⟩ ssect =
      ⟨ssect.map fun r => .exec (.updateVm (sectionUpdate r)), .ok ⟨⟩⟩ := by
  induction ssect with
  | nil => rfl
  | cons r rs ih =>
      rw [Run.loop_cons, updateStep, sqlQueryExec, Run.emit, Run.mk_ok_bind, ih]
      rfl

theorem CompletedScan.statements_eq {t : Target} {map : List KinfoVmentry}
    (c : CompletedScan t map) :
    statements (scanMap t map).trace = c.before ++ c.blocks ++ c.after := by
  rw [scanMap, Run.trace_bind_ok createTables_ok, Run.trace_bind_ok c.debug_eq,
    Run.trace_bind_ok c.comparts_eq, Run.trace_bind_ok c.names_eq,
    Run.trace_bind_ok c.final_eq,
    Run.trace_bind_ok c.sent_eq, loop_updateStep]
  simp only [statements_append, before, blocks, after, List.append_assoc]
  congr 6
  exact (congrArg statements (List.map_map ..).symm).trans
    (statements_map_exec _)

section Stages

variable {t : Target} {map : List KinfoVmentry} (c : CompletedScan t map)

theorem CompletedScan.spare_before {tb : Table} (h : .comparts ≠ tb) :
    Spare tb c.before := by
  have hcreate := spare_statements (spares_of_writes writes_createTables h)
  have hsearch := spare_statements (spares_of_writes (writes_getRDebug t) h)
  have hobjects := spare_statements
    (spares_of_writes (writes_scanRtldLinkmap t c.debug) h)
  have hnames := spare_statements
    (spares_of_writes (writes_scanRComparts t c.debug) h)
  simp only [before, Spare, List.mem_append]
  rintro s (((hs | hs) | hs) | hs)
  · exact hcreate s hs
  · exact hsearch s hs
  · exact hobjects s hs
  · exact hnames s hs

theorem CompletedScan.spare_blocks {tb : Table} (hsym : .elfSym ≠ tb)
    (hcap : .capInfo ≠ tb) : Spare tb c.blocks :=
  spare_statements (Run.Emits.loop
    (fun st entry => spares_scanEntry t c.comparts st entry hsym hcap) _ _)

theorem CompletedScan.spare_after {tb : Table} (h : .vm ≠ tb) :
    Spare tb c.after := by
  have hinsert := spare_statements
    (spares_of_writes (writes_insertVmEntries t c.final.values) h)
  simp only [after, Spare, List.mem_append, List.mem_map]
  rintro s (hs | ⟨r, _, rfl⟩)
  · exact hinsert s hs
  · simpa [Statement.writes] using h

/-- The section columns after the `UPDATE` pass. -/
def applyUpdates (ssect : List SpecialSections) (r : VmInfo) : VmInfo :=
  ssect.foldl (fun r s => (sectionUpdate s).apply r) r

theorem runVm_insertVmEntries (t : Target) (values : List VmEntry)
    (vm : List VmInfo) :
    (statements (insertVmEntries t values).trace).foldl Statement.runVm vm =
      vm ++ values.map VmEntry.inserted := by
  rw [insertVmEntries]
  split
  · rfl
  · next hnil =>
      have hvalues : values = [] := by simpa using hnil
      subst hvalues
      rw [List.map_nil, List.append_nil]
      rcases t.pendingVm with - | ⟨values, - | -⟩ | -
      · rfl
      · rfl
      · rfl
      · rfl

theorem runVm_updates (ssect : List SpecialSections) (vm : List VmInfo) :
    (ssect.map fun r => Statement.updateVm (sectionUpdate r)).foldl
      Statement.runVm vm = vm.map (applyUpdates ssect) := by
  induction ssect generalizing vm with
  | nil =>
      simp only [List.map_nil, List.foldl_nil]
      exact (List.map_id vm).symm
  | cons s ss ih =>
      rw [List.map_cons, List.foldl_cons, ih, Statement.runVm, List.map_map]
      rfl

/-- Each table after a completed scan, from the stage that writes it. -/
theorem CompletedScan.runAll_eq (db : Db) :
    runAll (statements (scanMap t map).trace) db =
      { vm := (db.vm ++ c.final.values.map VmEntry.inserted).map
          (applyUpdates c.final.ssect)
        capInfo := db.capInfo ++ c.blocks.flatMap Statement.capRows
        elfSym := db.elfSym ++ c.blocks.flatMap Statement.symRows
        comparts := c.before.foldl Statement.runComparts db.comparts } := by
  have hbefore : Spare .vm c.before ∧ Spare .capInfo c.before ∧
      Spare .elfSym c.before :=
    ⟨c.spare_before nofun, c.spare_before nofun, c.spare_before nofun⟩
  have hblocks : Spare .vm c.blocks ∧ Spare .comparts c.blocks :=
    ⟨c.spare_blocks nofun nofun, c.spare_blocks nofun nofun⟩
  have hafter : Spare .capInfo c.after ∧ Spare .elfSym c.after ∧
      Spare .comparts c.after :=
    ⟨c.spare_after nofun, c.spare_after nofun, c.spare_after nofun⟩
  have hvm (vm : List VmInfo) : c.after.foldl Statement.runVm vm =
      (vm ++ c.final.values.map VmEntry.inserted).map
        (applyUpdates c.final.ssect) := by
    rw [after, List.foldl_append, runVm_insertVmEntries, runVm_updates]
  rw [Chericat.runAll_eq, c.statements_eq]
  simp only [List.foldl_append, List.flatMap_append, hbefore.1.runVm,
    hbefore.2.1.capRows, hbefore.2.2.symRows, hblocks.1.runVm,
    hblocks.2.runComparts, hafter.1.capRows, hafter.2.1.symRows,
    hafter.2.2.runComparts, hvm, List.nil_append, List.append_nil]

theorem CompletedScan.dbAfter_eq (hmap : t.vmmap = some map)
    (h : (scanMem t).outcome = .ok ⟨⟩) (db : Db) :
    dbAfter t db =
      { vm := (db.vm ++ c.final.values.map VmEntry.inserted).map
          (applyUpdates c.final.ssect)
        capInfo := db.capInfo ++ c.blocks.flatMap Statement.capRows
        elfSym := db.elfSym ++ c.blocks.flatMap Statement.symRows
        comparts := c.before.foldl Statement.runComparts db.comparts } := by
  rw [dbAfter, scanMem_eq_scanMap hmap h, c.runAll_eq]

end Stages

/-! ### The block loop -/

/-- The granules captured in the window of a block. -/
def blockCaps (t : Target) (i : Nat) (kivp : KinfoVmentry) : List ULong :=
  if hascap t kivp then
    blockGranules (t.memory i) kivp.kveStart kivp.kveEnd
  else []

/-- The rows captured in the window of a block, which `v` describes. -/
def blockRows (t : Target) (p : (KinfoVmentry × Nat) × VmEntry) :
    List CapInfo :=
  (blockCaps t p.1.2 p.1.1).map (rowAt t (t.memory p.1.2) p.2.mmapPath)

def Aligned (kivp : KinfoVmentry) : Prop :=
  PageAligned kivp.kveStart ∧ PageAligned kivp.kveEnd

instance (kivp : KinfoVmentry) : Decidable (Aligned kivp) :=
  inferInstanceAs (Decidable (_ ∧ _))

theorem capRows_captureStatements (rows : List CapInfo) :
    (captureStatements rows).flatMap Statement.capRows = rows := by
  rw [captureStatements]
  split
  · simp [Statement.capRows]
  · next h => simpa using Eq.symm (not_not.mp h)

/-- The rows of a block, and the end of its page loop. -/
theorem scanPages_spec (t : Target) (m : Memory) {kivp : KinfoVmentry}
    (path : Text) (h : Aligned kivp) :
    (scanPages t m kivp path).outcome = .ok ⟨⟩ ∧
      (statements (scanPages t m kivp path).trace).flatMap Statement.capRows =
        (if hascap t kivp then blockGranules m kivp.kveStart kivp.kveEnd
          else []).map (rowAt t m path) := by
  rw [scanPages]
  split
  · obtain ⟨hok, htrace⟩ := pageLoop_spec t m path h.1 h.2
      (pagesBetween_le_pageTurns kivp.kveStart kivp.kveEnd)
    refine ⟨hok, ?_⟩
    rw [htrace, List.flatMap_assoc, blockGranules, List.map_flatMap]
    simp only [pageStatements, capRows_captureStatements]
  · exact ⟨rfl, rfl⟩

theorem scanBlock_spec (t : Target) (i : Nat) {kivp : KinfoVmentry}
    (path : Text) (h : Aligned kivp) :
    (scanBlock t i kivp path).outcome = .ok ⟨⟩ ∧
      (statements (scanBlock t i kivp path).trace).flatMap Statement.capRows =
        (blockCaps t i kivp).map (rowAt t (t.memory i) path) := by
  obtain ⟨hok, hrows⟩ := scanPages_spec t (t.memory i) path h
  have hattach : ptraceAttach.outcome = .ok ⟨⟩ := rfl
  constructor
  · rw [scanBlock, Run.outcome_bind_ok hattach, Run.outcome_bind_ok hok]
    rfl
  · rw [scanBlock, Run.trace_bind_ok hattach, Run.trace_bind_ok hok,
      statements_append, statements_append, List.flatMap_append,
      List.flatMap_append, hrows, blockCaps]
    simp [ptraceAttach, ptraceDetach]

/-- What the block loop has done: `scanned` pairs each entry with the row that
describes it, and the rows captured in page-aligned blocks are those of the
blocks, in order. -/
structure BlocksScanned (t : Target) (comparts : List CompartData)
    (done : List (KinfoVmentry × Nat)) (ss : List Statement) (st : ScanState)
    (scanned : List ((KinfoVmentry × Nat) × VmEntry)) : Prop where
  entries : scanned.map Prod.fst = done
  values : scanned.map Prod.snd = st.values
  described : ∀ p ∈ scanned, ∃ st', p.2 = blockEntry t comparts st' p.1.1
  captured : (∀ e ∈ done, Aligned e.1) →
    ss.flatMap Statement.capRows = scanned.flatMap (blockRows t)

theorem BlocksScanned.step {t : Target} {comparts : List CompartData}
    {done : List (KinfoVmentry × Nat)} {ss : List Statement}
    {st st' : ScanState} {scanned : List ((KinfoVmentry × Nat) × VmEntry)}
    (hscanned : BlocksScanned t comparts done ss st scanned)
    {entry : KinfoVmentry × Nat}
    (h : (scanEntry t comparts st entry).outcome = .ok st') :
    ∃ scanned', BlocksScanned t comparts (done ++ [entry])
      (ss ++ statements (scanEntry t comparts st entry).trace) st' scanned' := by
  obtain ⟨st₁, _, _, htrace, rfl⟩ := scanEntry_ok h
  have hnone : Spare .capInfo (statements (parseFile t st entry.1).trace) :=
    spare_statements (spares_of_writes (writes_parseFile t st entry.1) nofun)
  refine ⟨scanned ++ [(entry, blockEntry t comparts st₁ entry.1)], ?_⟩
  constructor
  · simp [hscanned.entries]
  · simp [hscanned.values]
  · intro p hp
    rcases List.mem_append.mp hp with hp | hp
    · exact hscanned.described p hp
    · cases List.mem_singleton.mp hp
      exact ⟨st₁, rfl⟩
  · intro haligned
    have hspec := (scanBlock_spec t entry.2 (mmapPath t st₁ entry.1)
      (haligned entry (by simp))).2
    have hbefore := hscanned.captured fun e he =>
      haligned e (List.mem_append_left _ he)
    rw [htrace]
    simp only [statements_append, List.flatMap_append, hbefore, hnone.capRows,
      hspec]
    simp [blockRows, blockEntry]

/-- The block loop, entry by entry. -/
theorem loop_scanEntry {t : Target} {comparts : List CompartData}
    {entries : List (KinfoVmentry × Nat)} {st : ScanState}
    (h : (Run.loop (scanEntry t comparts) .start entries).outcome = .ok st) :
    ∃ scanned, BlocksScanned t comparts entries
      (statements (Run.loop (scanEntry t comparts) .start entries).trace) st
      scanned := by
  refine Run.loop_induction (P := fun done tr st =>
    ∃ scanned, BlocksScanned t comparts done (statements tr) st scanned) h
    ⟨[], rfl, rfl, nofun, fun _ => rfl⟩ ?_
  rintro done tr st e st' ⟨scanned, hscanned⟩ hstep
  rw [statements_append]
  exact hscanned.step hstep

/-- Every entry has its row. -/
theorem values_length {t : Target} {comparts : List CompartData}
    {map : List KinfoVmentry} {st : ScanState}
    (h : (Run.loop (scanEntry t comparts) .start map.zipIdx).outcome =
      .ok st) : st.values.length = map.length := by
  obtain ⟨scanned, hscanned⟩ := loop_scanEntry h
  rw [← hscanned.values, List.length_map, ← List.length_map (f := Prod.fst),
    hscanned.entries, List.length_zipIdx]

/-! ### The small process -/

theorem loop_scanEntry_ok {t : Target} (comparts : List CompartData)
    {entries : List (KinfoVmentry × Nat)}
    (h : ∀ e ∈ entries, Aligned e.1 ∧ e.1.kvePath = []) (st : ScanState) :
    ∃ st', (Run.loop (scanEntry t comparts) st entries).outcome = .ok st' := by
  induction entries generalizing st with
  | nil => exact ⟨st, rfl⟩
  | cons e es ih =>
      obtain ⟨haligned, hpath⟩ := h e List.mem_cons_self
      have hparse : (parseFile t st e.1).outcome = .ok st := by
        rw [parseFile, if_pos hpath]
        rfl
      have hblock := (scanBlock_spec t e.2 (mmapPath t st e.1) haligned).1
      have hstep : (scanEntry t comparts st e).outcome =
          .ok { st with values := st.values ++ [blockEntry t comparts st e.1] } := by
        rw [scanEntry, Run.outcome_bind_ok hparse, Run.outcome_bind_ok hblock]
        rfl
      rw [Run.loop_cons, Run.outcome_bind_ok hstep]
      exact ih (fun e he => h e (List.mem_cons_of_mem _ he)) _

/-- The scan of the small process completes. -/
theorem scanMem_sample_ok (map : List KinfoVmentry) (memory : Nat → Memory)
    (h : ∀ e ∈ map, Aligned e ∧ e.kvePath = []) :
    (scanMem (Target.sample map memory)).outcome = .ok ⟨⟩ := by
  have hdebug : (getRDebug (Target.sample map memory)).outcome =
      .ok ⟨[], []⟩ := rfl
  have hcomparts : (scanRtldLinkmap (Target.sample map memory)
      ⟨[], []⟩).outcome = .ok [] := rfl
  have hnames : (scanRComparts (Target.sample map memory)
      ⟨[], []⟩).outcome = .ok [] := rfl
  obtain ⟨st, hst⟩ := @loop_scanEntry_ok (Target.sample map memory) []
    map.zipIdx (fun e he => h e.1 (List.fst_mem_of_mem_zipIdx he)) .start
  change (scanMap (Target.sample map memory) map).outcome = _
  rw [scanMap, Run.outcome_bind_ok createTables_ok, Run.outcome_bind_ok hdebug,
    Run.outcome_bind_ok hcomparts, Run.outcome_bind_ok hnames,
    Run.outcome_bind_ok hst,
    Run.outcome_bind_ok (insertVmEntries_ok (Or.inr rfl)), loop_updateStep]

end Chericat
