import Chericat.ScanCompletes
import Chericat.SeenBuffer

/-!
The events of the block loop, alone and in the whole scan.  They are a prefix
of a log that the map alone determines, and all of it when the loop returns;
what holds of the log holds of every run.
-/

namespace Chericat

/-! ### The log of a map -/

/-- The events of the part that parses, for one entry of the map. -/
def SeenBuffer.parseLog (b : SeenBuffer) (kivp : KinfoVmentry) :
    List BookEvent :=
  if kivp.kvePath = [] then []
  else if b.seen.any (·.kvePath = kivp.kvePath) then []
  else
    [.store b.grow.seenIndex b.grow.seenKivpBufferCapacity
        b.grow.seenKivp.length,
      .parse kivp.kvePath kivp.kveStart b.grow.ssectIndex]

/-- The events of the two tests. -/
def SeenBuffer.testLog (b : SeenBuffer) : List BookEvent :=
  [.readRecord (b.ssectIndex - 1) b.ssectIndex,
    .readRecord (b.ssectIndex - 1) b.ssectIndex]

def SeenBuffer.log (b : SeenBuffer) (kivp : KinfoVmentry) : List BookEvent :=
  b.parseLog kivp ++ (b.next kivp).testLog

/-- The events of the loop over a map. -/
def mapLog (map : List KinfoVmentry) : List BookEvent :=
  Run.logFrom SeenBuffer.next SeenBuffer.log .start map

/-- The events of a trace that concern the arrays. -/
def bookEvents (trace : List (Event ⊕ BookEvent)) : List BookEvent :=
  trace.filterMap Sum.getRight?

section Logs

variable {t : Target} {comparts : List CompartData} {st st' : LoopState}

theorem logs_book (e : BookEvent) :
    Run.Logs (Sum.getRight? : Event ⊕ BookEvent → _) [e] (book e) :=
  Run.logs_emit rfl

theorem logs_liftScan {α : Type} (m : Scan α) :
    Run.Logs (Sum.getRight? : Event ⊕ BookEvent → _) [] (liftScan m) := by
  apply Run.logs_of_emits
  intro e he
  obtain ⟨e', _, rfl⟩ := List.mem_map.mp he
  rfl

theorem logs_bookParse (kivp : KinfoVmentry) :
    Run.Logs (Sum.getRight? : Event ⊕ BookEvent → _)
      (st.buffer.parseLog kivp) (bookParse t st kivp) := by
  rw [bookParse, SeenBuffer.parseLog]
  split
  · exact Run.logs_pure st
  · split
    · exact Run.logs_pure st
    · exact (logs_book _).bind fun _ _ => (logs_liftScan _).bind fun _ _ =>
        (logs_book _).bind fun _ _ => (logs_liftScan _).bind fun _ _ =>
          Run.logs_pure _

theorem bookParse_buffer {kivp : KinfoVmentry}
    (h : (bookParse t st kivp).outcome = .ok st') :
    st'.buffer = st.buffer.next kivp := by
  rw [bookParse] at h
  rw [SeenBuffer.next]
  split at h
  · next hpath =>
      cases h
      rw [if_pos hpath]
  · next hpath =>
      rw [if_neg hpath]
      split at h
      · next hseen =>
          cases h
          rw [if_pos hseen]
      · next hseen =>
          obtain ⟨_, _, h⟩ := Run.bind_eq_ok h
          obtain ⟨_, _, h⟩ := Run.bind_eq_ok h
          obtain ⟨_, _, h⟩ := Run.bind_eq_ok h
          obtain ⟨_, _, h⟩ := Run.bind_eq_ok h
          cases h
          rw [if_neg hseen]

theorem logs_bookEntry (entry : KinfoVmentry × Nat) :
    Run.Logs (Sum.getRight? : Event ⊕ BookEvent → _)
      (st.buffer.log entry.1) (bookEntry t comparts st entry) := by
  rw [bookEntry]
  apply (logs_bookParse entry.1).bind
  intro st₁ hparse
  rw [← bookParse_buffer hparse]
  have htests : Run.Logs (Sum.getRight? : Event ⊕ BookEvent → _)
      st₁.buffer.testLog (bookTests st₁) :=
    (logs_book _).bind fun _ _ => logs_book _
  have hrest := htests.bind (fun _ _ =>
    (logs_liftScan (scanBlock t entry.2 entry.1
      (mmapPath t st₁.scanState entry.1))).bind fun _ _ =>
        Run.logs_pure { st₁ with
          values := st₁.values ++
            [blockEntry t comparts st₁.scanState entry.1] })
  rwa [List.append_nil, List.append_nil] at hrest

theorem bookEntry_buffer {entry : KinfoVmentry × Nat}
    (h : (bookEntry t comparts st entry).outcome = .ok st') :
    st'.buffer = st.buffer.next entry.1 := by
  rw [bookEntry] at h
  obtain ⟨st₁, hparse, h⟩ := Run.bind_eq_ok h
  obtain ⟨_, _, h⟩ := Run.bind_eq_ok h
  obtain ⟨_, _, h⟩ := Run.bind_eq_ok h
  cases h
  have hbuffer := bookParse_buffer hparse
  exact hbuffer

/-- The events of a run are the first of its map's log, and all of them when it
returns. -/
theorem logs_bookLoop (t : Target) (comparts : List CompartData)
    (map : List KinfoVmentry) :
    Run.Logs (Sum.getRight? : Event ⊕ BookEvent → _) (mapLog map)
      (bookLoop t comparts map) := by
  have hloop : Run.Logs (Sum.getRight? : Event ⊕ BookEvent → _)
      (Run.logFrom (fun (b : SeenBuffer) entry => b.next entry.1)
        (fun b entry => b.log entry.1) .start map.zipIdx)
      (Run.loop (bookEntry t comparts) (.start map.length) map.zipIdx) :=
    Run.Logs.loop (p := LoopState.buffer) (fun _ => logs_bookEntry)
      (fun _ _ _ => bookEntry_buffer) (.start map.length) map.zipIdx
  rw [← Run.logFrom_map] at hloop
  rwa [List.zipIdx_map_fst] at hloop

theorem loop_buffer {entries : List (KinfoVmentry × Nat)}
    (h : (Run.loop (bookEntry t comparts) st entries).outcome = .ok st') :
    st'.buffer = (entries.map Prod.fst).foldl SeenBuffer.next st.buffer := by
  refine Run.loop_induction (P := fun done _ st' =>
    st'.buffer = (done.map Prod.fst).foldl SeenBuffer.next st.buffer) h rfl ?_
  intro done _ st₁ entry st₂ hst hstep
  rw [List.map_append, List.foldl_append, ← hst, bookEntry_buffer hstep]
  rfl

end Logs

/-! ### The whole scan -/

/-- The scan up to the end of its block loop, with the arrays of this loop. -/
def bookBlocks (t : Target) (map : List KinfoVmentry) :
    BookScan LoopState := do
  liftScan createTables
  let debug ← liftScan (getRDebug t)
  let comparts ← liftScan (scanRtldLinkmap t debug)
  let _ ← liftScan (scanRComparts t debug)
  bookLoop t comparts map

def bookMap (t : Target) (map : List KinfoVmentry) : BookScan PUnit := do
  let st ← bookBlocks t map
  liftScan (insertVmEntries t st.values)
  liftScan (Run.loop updateStep ⟨⟩ st.scanState.ssect)

/-- `scan_mem` with the arrays of its block loop. -/
def bookMem (t : Target) : BookScan PUnit :=
  match t.procs with
  | none => Run.stop .errx
  | some pcnt =>
      if pcnt ≠ 1 then Run.stop .errx
      else
        match t.vmmap with
        | none => Run.stop .errx
        | some map => bookMap t map

theorem bookBlocks_refines (t : Target) (map : List KinfoVmentry) :
    Run.Refines Sum.getLeft? (fun low st => low.scanState = st)
      (bookBlocks t map) (scanBlocks t map) := by
  refine (liftScan_refines createTables).bind ?_
  rintro _ _ rfl
  refine (liftScan_refines (getRDebug t)).bind ?_
  rintro debug _ rfl
  refine (liftScan_refines (scanRtldLinkmap t debug)).bind ?_
  rintro comparts _ rfl
  refine (liftScan_refines (scanRComparts t debug)).bind ?_
  rintro _ _ rfl
  exact bookLoop_refines t comparts map

/-- Without what concerns the arrays, the scan is that of the model. -/
theorem bookMem_refines (t : Target) :
    Run.Refines Sum.getLeft? Eq (bookMem t) (scanMem t) := by
  rw [bookMem, scanMem]
  cases t.procs with
  | none => exact Run.refines_stop _
  | some pcnt =>
      by_cases hone : pcnt ≠ 1
      · simp only [if_pos hone]
        exact Run.refines_stop _
      · simp only [if_neg hone]
        cases t.vmmap with
        | none => exact Run.refines_stop _
        | some map =>
            simp only [scanMap_eq]
            refine (bookBlocks_refines t map).bind ?_
            rintro low st hst
            have hvalues : low.values = st.values :=
              congrArg ScanState.values hst
            rw [hst, hvalues]
            refine (liftScan_refines (insertVmEntries t st.values)).bind ?_
            rintro _ _ rfl
            exact liftScan_refines (Run.loop updateStep ⟨⟩ st.ssect)

section WholeScan

variable {t : Target} {map : List KinfoVmentry}

theorem logs_bookBlocks (t : Target) (map : List KinfoVmentry) :
    Run.Logs (Sum.getRight? : Event ⊕ BookEvent → _) (mapLog map)
      (bookBlocks t map) := by
  have hblocks : Run.Logs (Sum.getRight? : Event ⊕ BookEvent → _)
      ([] ++ ([] ++ ([] ++ ([] ++ mapLog map)))) (bookBlocks t map) :=
    (logs_liftScan _).bind fun _ _ => (logs_liftScan _).bind fun debug _ =>
      (logs_liftScan _).bind fun comparts _ => (logs_liftScan _).bind fun _ _ =>
        logs_bookLoop t comparts map
  simpa only [List.nil_append] using hblocks

/-- The events of the scan are the first of its map's log. -/
theorem isPrefix_bookMem (hmap : t.vmmap = some map) :
    bookEvents (bookMem t).trace <+: mapLog map := by
  rw [bookMem]
  split
  · exact List.nil_prefix
  · split
    · exact List.nil_prefix
    · simp only [hmap]
      have hlogs : Run.Logs (Sum.getRight? : Event ⊕ BookEvent → _)
          (mapLog map ++ ([] ++ [])) (bookMap t map) :=
        (logs_bookBlocks t map).bind fun _ _ =>
          (logs_liftScan _).bind fun _ _ => logs_liftScan _
      have hprefix := hlogs.isPrefix
      rw [List.append_nil, List.append_nil] at hprefix
      exact hprefix

/-- They are all of them when the block loop gets through the map. -/
theorem bookEvents_bookMem (hmap : t.vmmap = some map)
    (hreach : ReachesBlocks t) (hscannable : MapScannable t map) :
    bookEvents (bookMem t).trace = mapLog map := by
  have hprocs := hreach.findsMap.1
  obtain ⟨low, hlow⟩ := (bookBlocks_refines t map).succeeds_iff.2
    ((scanBlocks_succeeds_iff hprocs hmap).2 ⟨hreach, hscannable⟩)
  have hrest : Run.Logs (Sum.getRight? : Event ⊕ BookEvent → _) ([] ++ [])
      (liftScan (insertVmEntries t low.values) >>= fun _ =>
        liftScan (Run.loop updateStep ⟨⟩ low.scanState.ssect)) :=
    (logs_liftScan _).bind fun _ _ => logs_liftScan _
  have hfull := (logs_bookBlocks t map).full low hlow
  simp only [bookMem, hprocs, hmap, ne_eq, not_true_eq_false, if_false]
  rw [bookMap, Run.trace_bind_ok hlow, bookEvents, List.filterMap_append, hfull,
    List.prefix_nil.1 hrest.isPrefix, List.append_nil]

end WholeScan

/-! ### What the log holds -/

theorem mapLog_concat (map : List KinfoVmentry) (kivp : KinfoVmentry) :
    mapLog (map ++ [kivp]) =
      mapLog map ++ (map.foldl SeenBuffer.next .start).log kivp :=
  Run.logFrom_concat _ _ _ map kivp

theorem length_seenEntries_le (map : List KinfoVmentry) :
    (seenEntries map).length ≤ map.length := by
  induction map using List.reverseRecOn with
  | nil => exact Nat.le_refl 0
  | append_singleton map kivp ih =>
      rw [List.length_append, List.length_singleton]
      by_cases hleads : Leads map kivp
      · rw [seenEntries_of_leads hleads, List.length_append,
          List.length_singleton]
        omega
      · rw [seenEntries_of_not_leads hleads]
        omega

/-- What an entry logs when it leads: a store and a call, both at the number of
entries seen. -/
theorem parseLog_of_leads {map : List KinfoVmentry} {kivp : KinfoVmentry}
    (h : Leads map kivp) :
    ∃ capacity, (seenEntries map).length < capacity ∧
      (map.foldl SeenBuffer.next .start).parseLog kivp =
        [.store (seenEntries map).length capacity capacity,
          .parse kivp.kvePath kivp.kveStart (seenEntries map).length] := by
  have hholds := holds_foldl_next map
  obtain ⟨hgrown, hroom⟩ := hholds.grow
  have hnew : ¬ (seenEntries map).any (·.kvePath = kivp.kvePath) = true := by
    rw [any_seenEntries map h.named]
    rintro ⟨n, hn, hsame⟩
    exact h.fresh n hn hsame
  refine ⟨_, hroom, ?_⟩
  rw [SeenBuffer.parseLog, if_neg h.named, hholds.seen_eq, if_neg hnew,
    hgrown.index, hgrown.records, hgrown.length_cells]

theorem parseLog_of_not_leads {map : List KinfoVmentry} {kivp : KinfoVmentry}
    (h : ¬ Leads map kivp) :
    (map.foldl SeenBuffer.next .start).parseLog kivp = [] := by
  rw [SeenBuffer.parseLog, (holds_foldl_next map).seen_eq]
  by_cases hpath : kivp.kvePath = []
  · rw [if_pos hpath]
  · have hseen :
        (seenEntries map).any (·.kvePath = kivp.kvePath) = true := by
      rw [any_seenEntries map hpath]
      by_contra hfresh
      exact h ⟨hpath, fun n hn hsame => hfresh ⟨n, hn, hsame⟩⟩
    rw [if_neg hpath, if_pos hseen]

/-- The tests of an entry read the record before the entries seen. -/
theorem testLog_eq (map : List KinfoVmentry) (kivp : KinfoVmentry) :
    ((map.foldl SeenBuffer.next .start).next kivp).testLog =
      List.replicate 2 (.readRecord
        ((seenEntries (map ++ [kivp])).length - 1)
        (seenEntries (map ++ [kivp])).length) := by
  have hholds := (holds_foldl_next map).next kivp
  rw [← seenEntries_concat] at hholds
  rw [SeenBuffer.testLog, hholds.records]
  rfl

/-- Every store is inside the buffer. -/
theorem stores_in_bounds (map : List KinfoVmentry) :
    ∀ i c n, .store i c n ∈ mapLog map → i < c ∧ c = n := by
  induction map using List.reverseRecOn with
  | nil => simp [mapLog, Run.logFrom]
  | append_singleton map kivp ih =>
      intro i c n hmem
      rw [mapLog_concat, SeenBuffer.log, testLog_eq] at hmem
      rcases List.mem_append.mp hmem with hmem | hmem
      · exact ih i c n hmem
      · by_cases hleads : Leads map kivp
        · obtain ⟨capacity, hroom, hlog⟩ := parseLog_of_leads hleads
          rw [hlog] at hmem
          simp at hmem
          obtain ⟨rfl, rfl, rfl⟩ := hmem
          exact ⟨hroom, rfl⟩
        · rw [parseLog_of_not_leads hleads] at hmem
          simp at hmem

/-! ### The calls of `get_elf_info` -/

/-- The calls among the events: path, base address and index. -/
def elfCalls (events : List BookEvent) : List (Text × ULong × Nat) :=
  events.filterMap fun
    | .parse path sourceBase i => some (path, sourceBase, i)
    | _ => none

theorem mem_elfCalls {events : List BookEvent} {path : Text}
    {sourceBase : ULong} {i : Nat} :
    (path, sourceBase, i) ∈ elfCalls events ↔
      .parse path sourceBase i ∈ events := by
  rw [elfCalls, List.mem_filterMap]
  constructor
  · rintro ⟨e, he, hcall⟩
    cases e with
    | parse p b k =>
        cases hcall
        exact he
    | store => cases hcall
    | readRecord => cases hcall
  · intro h
    exact ⟨_, h, rfl⟩

/-- The distinct paths of a map, in order of first appearance. -/
def distinctPaths (map : List KinfoVmentry) : List Text :=
  ((map.map KinfoVmentry.kvePath).filter (· ≠ [])).eraseDups

/-- The start of the first entry with the path. -/
def firstStart (map : List KinfoVmentry) (path : Text) : ULong :=
  ((map.find? (·.kvePath = path)).map KinfoVmentry.kveStart).getD 0

theorem mem_paths_iff {map : List KinfoVmentry} {path : Text}
    (hpath : path ≠ []) :
    path ∈ (map.map KinfoVmentry.kvePath).filter (· ≠ []) ↔
      ∃ n ∈ map, n.kvePath = path := by
  simp [hpath]

theorem distinctPaths_concat (map : List KinfoVmentry) (kivp : KinfoVmentry) :
    distinctPaths (map ++ [kivp]) =
      distinctPaths map ++ if Leads map kivp then [kivp.kvePath] else [] := by
  rw [distinctPaths, List.map_append, List.filter_append,
    List.eraseDups_append, ← distinctPaths]
  congr 1
  by_cases hpath : kivp.kvePath = []
  · have hleads : ¬ Leads map kivp := fun h => h.named hpath
    simp [hpath, hleads, List.removeAll]
  · have hkept : (List.map KinfoVmentry.kvePath [kivp]).filter (· ≠ []) =
        [kivp.kvePath] := by simp [hpath]
    rw [hkept, List.cons_removeAll]
    by_cases hleads : Leads map kivp
    · have hnew : kivp.kvePath ∉
          (map.map KinfoVmentry.kvePath).filter (· ≠ []) := by
        rw [mem_paths_iff hpath]
        rintro ⟨n, hn, hsame⟩
        exact hleads.fresh n hn hsame
      rw [if_pos (Bool.eq_false_iff.mpr (mt List.contains_iff_mem.mp hnew)),
        if_pos hleads]
      rfl
    · have hold : kivp.kvePath ∈
          (map.map KinfoVmentry.kvePath).filter (· ≠ []) := by
        rw [mem_paths_iff hpath]
        by_contra hfresh
        exact hleads ⟨hpath, fun n hn hsame => hfresh ⟨n, hn, hsame⟩⟩
      rw [List.contains_iff_mem.mpr hold, if_neg (by decide),
        if_neg hleads]
      rfl

/-- The calls a map leads to: one for each distinct path, in order, with the
start of the first entry that has it. -/
def callsOf (map : List KinfoVmentry) : List (Text × ULong × Nat) :=
  (distinctPaths map).zipIdx.map fun e => (e.1, firstStart map e.1, e.2)

theorem length_distinctPaths (map : List KinfoVmentry) :
    (distinctPaths map).length = (seenEntries map).length := by
  induction map using List.reverseRecOn with
  | nil => rfl
  | append_singleton map kivp ih =>
      rw [distinctPaths_concat, List.length_append, ih]
      by_cases hleads : Leads map kivp
      · rw [if_pos hleads, seenEntries_of_leads hleads, List.length_append]
        rfl
      · rw [if_neg hleads, seenEntries_of_not_leads hleads]
        rfl

/-- An entry behind a map does not change where its paths start. -/
theorem firstStart_concat {map : List KinfoVmentry} {path : Text}
    (h : path ∈ distinctPaths map) (kivp : KinfoVmentry) :
    firstStart (map ++ [kivp]) path = firstStart map path := by
  have hpath := List.mem_eraseDups.mp h
  have hnamed : path ≠ [] := of_decide_eq_true (List.mem_filter.mp hpath).2
  obtain ⟨n, hn, hsame⟩ := (mem_paths_iff hnamed).mp hpath
  have hfound : (map.find? (·.kvePath = path)).isSome = true :=
    List.find?_isSome.mpr ⟨n, hn, decide_eq_true hsame⟩
  obtain ⟨s, hs⟩ := Option.isSome_iff_exists.mp hfound
  rw [firstStart, firstStart, List.find?_append, hs, Option.some_or]

theorem firstStart_of_leads {map : List KinfoVmentry} {kivp : KinfoVmentry}
    (h : Leads map kivp) :
    firstStart (map ++ [kivp]) kivp.kvePath = kivp.kveStart := by
  have hnone : map.find? (·.kvePath = kivp.kvePath) = none := by
    rw [List.find?_eq_none]
    intro n hn
    simpa using h.fresh n hn
  rw [firstStart, List.find?_append, hnone]
  simp

theorem callsOf_concat (map : List KinfoVmentry) (kivp : KinfoVmentry) :
    callsOf (map ++ [kivp]) = callsOf map ++
      if Leads map kivp then
        [(kivp.kvePath, kivp.kveStart, (seenEntries map).length)]
      else [] := by
  have hold : (distinctPaths map).zipIdx.map
      (fun e => (e.1, firstStart (map ++ [kivp]) e.1, e.2)) =
      callsOf map := by
    apply List.map_congr_left
    intro e he
    rw [firstStart_concat (List.fst_mem_of_mem_zipIdx he)]
  rw [callsOf, distinctPaths_concat, List.zipIdx_append, List.map_append, hold]
  by_cases hleads : Leads map kivp
  · rw [if_pos hleads, if_pos hleads, List.zipIdx_singleton,
      List.map_singleton, firstStart_of_leads hleads, length_distinctPaths,
      Nat.zero_add]
  · rw [if_neg hleads, if_neg hleads]
    rfl

theorem elfCalls_mapLog (map : List KinfoVmentry) :
    elfCalls (mapLog map) = callsOf map := by
  induction map using List.reverseRecOn with
  | nil => rfl
  | append_singleton map kivp ih =>
      rw [callsOf_concat, mapLog_concat, SeenBuffer.log, testLog_eq, elfCalls,
        List.filterMap_append, List.filterMap_append, ← elfCalls, ih]
      congr 1
      by_cases hleads : Leads map kivp
      · obtain ⟨capacity, _, hlog⟩ := parseLog_of_leads hleads
        rw [hlog, if_pos hleads]
        rfl
      · rw [parseLog_of_not_leads hleads, if_neg hleads]
        rfl

theorem index_lt_of_mem_callsOf {map : List KinfoVmentry} {path : Text}
    {sourceBase : ULong} {i : Nat} (h : (path, sourceBase, i) ∈ callsOf map) :
    i < map.length := by
  obtain ⟨e, he, heq⟩ := List.mem_map.mp h
  cases heq
  have hindex := List.snd_lt_of_mem_zipIdx he
  have hlength := length_seenEntries_le map
  rw [length_distinctPaths] at hindex
  omega

/-! ### Files are parsed once -/

/-- The bookkeeping of a scan of a map: a call for each distinct path, in order
and numbered, no index out of range, and counters in step. -/
structure ParsesOnce (t : Target) (map : List KinfoVmentry) : Prop where
  refines : Run.Refines Sum.getLeft? Eq (bookMem t) (scanMem t)
  calls : elfCalls (bookEvents (bookMem t).trace) <+: callsOf map
  allCalls : ReachesBlocks t → MapScannable t map →
    elfCalls (bookEvents (bookMem t).trace) = callsOf map
  indices : ∀ path sourceBase i,
    .parse path sourceBase i ∈ bookEvents (bookMem t).trace → i < map.length
  stores : ∀ index capacity cells,
    .store index capacity cells ∈ bookEvents (bookMem t).trace →
    index < capacity ∧ capacity = cells
  returns : ∀ comparts, (bookLoop t comparts map).Succeeds ↔
    MapScannable t map
  counters : ∀ comparts done rest st, map = done ++ rest →
    (Run.loop (bookEntry t comparts) (.start map.length) done.zipIdx).outcome =
      .ok st →
    st.buffer.seenIndex = st.buffer.seenKivpBufferSize ∧
      st.buffer.seenKivpBufferSize = st.buffer.ssectIndex ∧
      st.buffer.ssectIndex ≤ done.length

/-- Whatever the target answers, and wherever the scan stops, each file is
parsed at most once, in order of first appearance, and the bookkeeping stays in
bounds; a scan whose map can be scanned parses every file. -/
theorem parsesOnce {t : Target} {map : List KinfoVmentry}
    (hmap : t.vmmap = some map) : ParsesOnce t map := by
  have hevents := isPrefix_bookMem hmap
  have hcalls : elfCalls (bookEvents (bookMem t).trace) <+: callsOf map := by
    rw [← elfCalls_mapLog]
    exact hevents.filterMap _
  constructor
  · exact bookMem_refines t
  · exact hcalls
  · intro hreach hscannable
    rw [bookEvents_bookMem hmap hreach hscannable, elfCalls_mapLog]
  · intro path sourceBase i hmem
    exact index_lt_of_mem_callsOf (hcalls.subset (mem_elfCalls.mpr hmem))
  · intro index capacity cells hmem
    exact stores_in_bounds map index capacity cells (hevents.subset hmem)
  · intro comparts
    rw [(bookLoop_refines t comparts map).succeeds_iff]
    exact blocks_succeed_iff t comparts map
  · intro comparts done rest st _ hst
    have hholds := holds_foldl_next done
    have hbuffer := loop_buffer hst
    rw [List.zipIdx_map_fst] at hbuffer
    change st.buffer = done.foldl SeenBuffer.next .start at hbuffer
    rw [hbuffer, hholds.index, hholds.size, hholds.records]
    exact ⟨rfl, rfl, length_seenEntries_le done⟩

/-- Two blocks of one library with a block of another in between. -/
def interleavedTarget : Target :=
  { twoLibraries with
    vmmap := some [headA, blockOf libB 0x50000 0x51000, pltA] }

/-- The file of the first library is parsed for its first block only. -/
theorem interleaved_parsesOnce :
    elfCalls (bookEvents (bookMem interleavedTarget).trace) =
      [(libA, 0x40000, 0), (libB, 0x50000, 1)] := by
  obtain ⟨hreach, map, hmap, hscannable, _⟩ :=
    (scanMem_completes_iff interleavedTarget).1.1 ⟨⟨⟩, rfl⟩
  rw [(parsesOnce hmap).allCalls hreach hscannable]
  cases hmap
  rfl

/-! ### Reads of the section records -/

/-- Every test reads a record below the number of those handed out, which an
earlier call of `get_elf_info` was given. -/
def RecordReadsInRange (events : List BookEvent) : Prop :=
  ∀ (before after : List BookEvent) (index : Int) (ssectIndex : Nat),
    events = before ++ .readRecord index ssectIndex :: after →
    0 ≤ index ∧ index < ssectIndex ∧
      ∃ path sourceBase, ∃ i : Nat,
        .parse path sourceBase i ∈ before ∧ (i : Int) = index

theorem RecordReadsInRange.of_isPrefix {events events' : List BookEvent}
    (h : RecordReadsInRange events') (hinit : events <+: events') :
    RecordReadsInRange events := by
  obtain ⟨rest, rfl⟩ := hinit
  intro before after index ssectIndex hsplit
  apply h before (after ++ rest)
  rw [hsplit, List.append_assoc, List.cons_append]

/-- Events behind others, whose tests may rely on all of these. -/
theorem RecordReadsInRange.append {events more : List BookEvent}
    (h : RecordReadsInRange events)
    (hmore : ∀ (index : Int) (ssectIndex : Nat),
      .readRecord index ssectIndex ∈ more →
      0 ≤ index ∧ index < ssectIndex ∧ ∃ path sourceBase, ∃ i : Nat,
        .parse path sourceBase i ∈ events ∧ (i : Int) = index) :
    RecordReadsInRange (events ++ more) := by
  intro before after index ssectIndex hsplit
  rcases List.append_eq_append_iff.mp hsplit with
    ⟨rest, rfl, hrest⟩ | ⟨rest, rfl, hrest⟩
  · obtain ⟨hnonneg, hlt, path, sourceBase, i, hmem, hi⟩ :=
      hmore index ssectIndex (by simp [hrest])
    exact ⟨hnonneg, hlt, path, sourceBase, i, List.mem_append_left _ hmem, hi⟩
  · rcases rest with - | ⟨e, rest⟩
    · rw [List.nil_append] at hrest
      obtain ⟨hnonneg, hlt, path, sourceBase, i, hmem, hi⟩ :=
        hmore index ssectIndex (hrest ▸ List.mem_cons_self)
      rw [List.append_nil] at hmem
      exact ⟨hnonneg, hlt, path, sourceBase, i, hmem, hi⟩
    · cases hrest
      exact h before rest index ssectIndex rfl

theorem length_seenEntries_pos {map : List KinfoVmentry} {kivp : KinfoVmentry}
    (hmem : kivp ∈ map) (hpath : kivp.kvePath ≠ []) :
    0 < (seenEntries map).length := by
  obtain ⟨s, hs, _⟩ := List.any_eq_true.mp
    ((any_seenEntries map hpath).mpr ⟨kivp, hmem, rfl⟩)
  exact List.length_pos_of_mem hs

/-- The last record handed out has been given to a call. -/
theorem exists_call (map : List KinfoVmentry)
    (hpos : 0 < (seenEntries map).length) :
    ∃ path sourceBase,
      (path, sourceBase, (seenEntries map).length - 1) ∈ callsOf map := by
  have hlast : (seenEntries map).length - 1 < (distinctPaths map).length := by
    rw [length_distinctPaths]
    omega
  refine ⟨(distinctPaths map)[(seenEntries map).length - 1], _,
    List.mem_map.mpr ⟨(_, (seenEntries map).length - 1), ?_, rfl⟩⟩
  rw [List.mem_zipIdx_iff_getElem?]
  exact List.getElem?_eq_getElem hlast

theorem recordReadsInRange_mapLog {map : List KinfoVmentry}
    (h : ∀ kivp, map.head? = some kivp → kivp.kvePath ≠ []) :
    RecordReadsInRange (mapLog map) := by
  induction map using List.reverseRecOn with
  | nil =>
      intro before after index ssectIndex hsplit
      simp [mapLog, Run.logFrom] at hsplit
  | append_singleton map kivp ih =>
      have hhead : ∀ k, map.head? = some k → k.kvePath ≠ [] := by
        intro k hk
        exact h k (by rw [List.head?_append, hk, Option.some_or])
      have hpos : 0 < (seenEntries (map ++ [kivp])).length := by
        obtain ⟨k, hk⟩ : ∃ k, (map ++ [kivp]).head? = some k := by
          cases map <;> simp
        exact length_seenEntries_pos (List.mem_of_head? hk) (h k hk)
      obtain ⟨path, sourceBase, hcall⟩ := exists_call _ hpos
      have hparse : .parse path sourceBase
          ((seenEntries (map ++ [kivp])).length - 1) ∈ mapLog map ++
            (map.foldl SeenBuffer.next .start).parseLog kivp := by
        rw [← elfCalls_mapLog, mapLog_concat, SeenBuffer.log, testLog_eq,
          ← List.append_assoc, elfCalls, List.filterMap_append,
          List.mem_append] at hcall
        rcases hcall with hcall | hcall
        · exact mem_elfCalls.mp hcall
        · simp at hcall
      rw [mapLog_concat, SeenBuffer.log, testLog_eq, ← List.append_assoc]
      have hparsed : RecordReadsInRange (mapLog map ++
          (map.foldl SeenBuffer.next .start).parseLog kivp) := by
        apply (ih hhead).append
        intro index ssectIndex hmem
        by_cases hleads : Leads map kivp
        · obtain ⟨capacity, _, hlog⟩ := parseLog_of_leads hleads
          rw [hlog] at hmem
          simp at hmem
        · rw [parseLog_of_not_leads hleads] at hmem
          simp at hmem
      apply hparsed.append
      intro index ssectIndex hmem
      cases List.eq_of_mem_replicate hmem
      exact ⟨by omega, by omega, path, sourceBase, _, hparse, by omega⟩

/-- An anonymous first entry is tested against the record before the first. -/
theorem bookEvents_of_anonymous {kivp : KinfoVmentry}
    (hpath : kivp.kvePath = []) (t : Target) (comparts : List CompartData)
    (rest : List KinfoVmentry) :
    ∃ after, bookEvents (bookLoop t comparts (kivp :: rest)).trace =
      .readRecord (-1) 0 :: after := by
  simp only [bookLoop, List.zipIdx_cons, Run.loop_cons, bookEntry, bookParse,
    hpath, ↓reduceIte, pure_bind, bookTests, bind_assoc]
  rw [book, Run.trace_bind_ok (Run.outcome_emit _), bookEvents,
    Run.trace_emit, List.filterMap_append]
  exact ⟨_, rfl⟩

/-- The tests of the block loop stay in range exactly when the map is empty or
its first entry is named. -/
theorem recordReads_iff (t : Target) (comparts : List CompartData)
    (map : List KinfoVmentry) :
    RecordReadsInRange (bookEvents (bookLoop t comparts map).trace) ↔
      ∀ kivp, map.head? = some kivp → kivp.kvePath ≠ [] := by
  constructor
  · intro h kivp hhead hpath
    obtain ⟨rest, rfl⟩ : ∃ rest, map = kivp :: rest := by
      rcases map with - | ⟨k, rest⟩
      · cases hhead
      · cases hhead
        exact ⟨rest, rfl⟩
    obtain ⟨after, hafter⟩ := bookEvents_of_anonymous hpath t comparts rest
    have hread := h [] after (-1) 0 hafter
    omega
  · intro h
    exact (recordReadsInRange_mapLog h).of_isPrefix
      (logs_bookLoop t comparts map).isPrefix

/-- A map that begins with an anonymous block: the record at index `-1` is
read. -/
theorem first_anonymous_stray :
    bookEvents (bookLoop twoLibraries [] [anonymousIn 0x20000 0x20000 0x21000,
        headA]).trace =
      [.readRecord (-1) 0, .readRecord (-1) 0, .store 0 100 100,
        .parse libA 0x40000 0, .readRecord 0 1, .readRecord 0 1] ∧
      ¬ RecordReadsInRange (bookEvents (bookLoop twoLibraries []
        [anonymousIn 0x20000 0x20000 0x21000, headA]).trace) := by
  have hevents : bookEvents (bookLoop twoLibraries []
      [anonymousIn 0x20000 0x20000 0x21000, headA]).trace =
      [.readRecord (-1) 0, .readRecord (-1) 0, .store 0 100 100,
        .parse libA 0x40000 0, .readRecord 0 1, .readRecord 0 1] := rfl
  refine ⟨hevents, fun h => ?_⟩
  have hread := h [] _ (-1) 0 hevents
  omega

end Chericat
