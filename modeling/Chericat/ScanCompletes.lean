import Chericat.SymbolsShown
import Chericat.UnreadableNames

/-!
Which scans complete.  A scan comes to its end when everything it reads can be
read and no page loop goes past the end of the address space, from where it
would start again.
-/

namespace Chericat

/-! ### Page loops that end -/

/-- A page start at or behind the end of the block is reached before the
addresses wrap around. -/
def PagesEnd (kivp : KinfoVmentry) : Prop :=
  kivp.kveEnd.toNat ≤ 2 ^ 64 - 4096 + kivp.kveStart.toNat % 4096

instance (kivp : KinfoVmentry) : Decidable (PagesEnd kivp) :=
  inferInstanceAs (Decidable (_ ≤ _))

/-- The loop ends when one of the page starts within reach is not before the
end. -/
theorem pageLoop_succeeds_iff (t : Target) (m : Memory) (path : Text)
    (stop : ULong) (turns : Nat) (start : ULong) :
    (pageLoop t m path turns start stop).Succeeds ↔
      ∃ k ≤ turns, ¬ pageAt start k < stop := by
  induction turns generalizing start with
  | zero =>
      simp only [pageLoop, Nat.le_zero, exists_eq_left, pageAt_zero]
      split
      · next hlt => simp [Run.Succeeds, hlt]
      · next hlt => exact iff_of_true ⟨_, rfl⟩ hlt
  | succ turns ih =>
      rw [pageLoop]
      split
      · next hlt =>
          rw [Run.succeeds_bind_iff]
          simp only [getTags_outcome, Except.ok.injEq, exists_eq_left', ih]
          constructor
          · rintro ⟨k, hk, hend⟩
            exact ⟨k + 1, by omega, by rwa [pageAt_succ]⟩
          · rintro ⟨k, hk, hend⟩
            cases k with
            | zero => exact absurd hlt (by rwa [pageAt_zero] at hend)
            | succ k => exact ⟨k, by omega, by rwa [pageAt_succ] at hend⟩
      · next hlt =>
          exact iff_of_true ⟨_, rfl⟩ ⟨0, Nat.zero_le _, by rwa [pageAt_zero]⟩

/-- The highest page start of all is the last one before the addresses wrap
around. -/
theorem exists_pageAt_iff (start stop : ULong) :
    (∃ k ≤ pageTurns, ¬ pageAt start k < stop) ↔
      stop.toNat ≤ 2 ^ 64 - 4096 + start.toNat % 4096 := by
  have hstart := start.isLt
  have hpage : ∀ k, (pageAt start k).toNat =
      (start.toNat + 4096 * k) % 2 ^ 64 := by
    intro k
    rw [pageAt, BitVec.toNat_add, BitVec.toNat_ofNat, Nat.add_mod_mod]
  simp only [BitVec.lt_def, hpage, Nat.not_lt, pageTurns]
  constructor
  · rintro ⟨k, -, hle⟩
    -- the remainder of a page start does not change
    have hmod : (start.toNat + 4096 * k) % 2 ^ 64 % 4096 =
        start.toNat % 4096 := by omega
    have hlt := Nat.mod_lt (start.toNat + 4096 * k) (y := 2 ^ 64) (by decide)
    omega
  · intro hle
    exact ⟨2 ^ 52 - 1 - start.toNat / 4096, by omega, by omega⟩

/-- The pages of a block are scanned to the end. -/
def BlockEnds (t : Target) (kivp : KinfoVmentry) : Prop :=
  hascap t kivp = true → PagesEnd kivp

theorem scanPages_succeeds_iff (t : Target) (m : Memory)
    (kivp : KinfoVmentry) (path : Text) :
    (scanPages t m kivp path).Succeeds ↔ BlockEnds t kivp := by
  rw [scanPages, BlockEnds]
  split
  · next hcap =>
      rw [pageLoop_succeeds_iff, exists_pageAt_iff, PagesEnd]
      simp [hcap]
  · next hcap => exact iff_of_true ⟨_, rfl⟩ fun h => absurd h hcap

theorem scanBlock_succeeds_iff (t : Target) (i : Nat) (kivp : KinfoVmentry)
    (path : Text) :
    (scanBlock t i kivp path).Succeeds ↔ BlockEnds t kivp := by
  rw [← scanPages_succeeds_iff t (t.memory i) kivp path, scanBlock]
  constructor
  · intro h
    obtain ⟨_, _, h⟩ := Run.succeeds_bind_iff.1 h
    obtain ⟨u, hu, _⟩ := Run.succeeds_bind_iff.1 h
    exact ⟨u, hu⟩
  · rintro ⟨u, hu⟩
    exact Run.succeeds_bind_iff.2 ⟨⟨⟩, rfl,
      Run.succeeds_bind_iff.2 ⟨u, hu, ⟨⟩, rfl⟩⟩

/-! ### Files that can be parsed -/

/-- The sections that are looked at, and the symbols of their tables, can be
read; and where no symbol is named, so can the list that is sent all the same,
and it can be freed. -/
def ElfFile.Parses (file : ElfFile) : Prop :=
  file.hasHeader = true → file.hasSectionNames = true →
    (∀ sec ∈ file.sectionsRead, sec.Readable) ∧
      (namedSymbols file.sectionsRead = [] → file.pending.Owned)

/-- The file behind an entry can be opened and parsed. -/
def FileParses (t : Target) (s : KinfoVmentry) : Prop :=
  ∃ file, t.elf s.kvePath = some file ∧ file.Parses

theorem getElfInfo_succeeds_iff (file : ElfFile) (source : Text)
    (sourceBase : ULong) :
    (getElfInfo file source sourceBase).Succeeds ↔ file.Parses := by
  have hstart : ElfState.SeenIn ⟨.zero, false, false, ⟨.indeterminate, 0⟩⟩ [] :=
    ⟨rfl, rfl⟩
  rw [ElfFile.Parses]
  cases hheader : file.hasHeader with
  | false =>
      refine iff_of_true ⟨.zero, ?_⟩ (by simp)
      simp [getElfInfo, hheader, sqlQueryExec]
      rfl
  | true =>
      cases hnames : file.hasSectionNames with
      | false =>
          refine iff_of_true ⟨.zero, ?_⟩ (by simp)
          simp [getElfInfo, hheader, hnames, sqlQueryExec]
          rfl
      | true =>
          simp only [forall_const]
          have hcreate : (Run.emit (.exec (.createTable elfSymTable)) :
              Scan PUnit).outcome = .ok ⟨⟩ := rfl
          have hend : ∀ {st}, BatchedBy
              ((namedSymbols file.sectionsRead).map fun p =>
                symRow file source sourceBase p.1 p.2)
              (statements (sectionLoop file source sourceBase
                ⟨.zero, false, false, ⟨.indeterminate, 0⟩⟩ file.sections).trace)
              st → ((finishSymbols file.pending st.values).outcome = .ok ⟨⟩ ↔
                (namedSymbols file.sectionsRead = [] → file.pending.Owned)) :=
            fun h => by rw [(h.finish file.pending).1, List.map_eq_nil_iff]
          rw [getElfInfo_run hheader hnames]
          constructor
          · intro h
            obtain ⟨_, _, h⟩ := Run.succeeds_bind_iff.1 h
            obtain ⟨st, hloop, h⟩ := Run.succeeds_bind_iff.1 h
            obtain ⟨_, hfinish, _⟩ := Run.succeeds_bind_iff.1 h
            have hread :=
              readable_of_sectionLoop (List.forall_mem_nil _) hstart hloop
            obtain ⟨st', hloop', hsyms⟩ :=
              sectionLoop_start source sourceBase hread
            cases hloop.symm.trans hloop'
            exact ⟨hread, (hend hsyms).1 hfinish⟩
          · rintro ⟨hread, howned⟩
            obtain ⟨st, hloop, hsyms⟩ :=
              sectionLoop_start source sourceBase hread
            exact Run.succeeds_bind_iff.2 ⟨⟨⟩, hcreate, Run.succeeds_bind_iff.2
              ⟨st, hloop, Run.succeeds_bind_iff.2
                ⟨⟨⟩, (hend hsyms).2 howned, _, rfl⟩⟩⟩

/-- An entry can be parsed unless its file is a new one that cannot. -/
theorem parseFile_succeeds_iff (t : Target) (st : ScanState)
    (kivp : KinfoVmentry) :
    (parseFile t st kivp).Succeeds ↔
      ∀ s ∈ addSeen st.seen kivp, s ∉ st.seen → FileParses t s := by
  rw [parseFile, addSeen]
  split
  · exact iff_of_true ⟨_, rfl⟩ fun s hs hnew => absurd hs hnew
  · split
    · exact iff_of_true ⟨_, rfl⟩ fun s hs hnew => absurd hs hnew
    · next hseen =>
        have hnew : kivp ∉ st.seen := by
          intro hmem
          exact hseen (List.any_eq_true.2 ⟨kivp, hmem, decide_eq_true rfl⟩)
        have hfile : (∀ s ∈ st.seen ++ [kivp], s ∉ st.seen → FileParses t s) ↔
            FileParses t kivp := by
          constructor
          · exact fun h => h kivp (by simp) hnew
          · intro h s hs hout
            rcases List.mem_append.1 hs with hin | hlast
            · exact absurd hin hout
            · rwa [List.mem_singleton.1 hlast]
        rw [hfile, Run.succeeds_bind_iff, FileParses]
        constructor
        · rintro ⟨file, hread, h⟩
          obtain ⟨record, hinfo, _⟩ := Run.succeeds_bind_iff.1 h
          exact ⟨file, readElf_ok hread,
            (getElfInfo_succeeds_iff _ _ _).1 ⟨record, hinfo⟩⟩
        · rintro ⟨file, helf, hparses⟩
          obtain ⟨record, hinfo⟩ :=
            (getElfInfo_succeeds_iff file kivp.kvePath kivp.kveStart).2 hparses
          refine ⟨file, by rw [readElf, helf]; rfl, ?_⟩
          exact Run.succeeds_bind_iff.2 ⟨record, hinfo, _, rfl⟩

/-! ### The block loop -/

theorem scanEntry_succeeds_iff (t : Target) (comparts : List CompartData)
    (st : ScanState) (entry : KinfoVmentry × Nat) :
    (scanEntry t comparts st entry).Succeeds ↔
      (parseFile t st entry.1).Succeeds ∧ BlockEnds t entry.1 := by
  rw [scanEntry]
  constructor
  · intro h
    obtain ⟨st₁, hparse, h⟩ := Run.succeeds_bind_iff.1 h
    obtain ⟨u, hblock, _⟩ := Run.succeeds_bind_iff.1 h
    exact ⟨⟨st₁, hparse⟩, (scanBlock_succeeds_iff _ _ _ _).1 ⟨u, hblock⟩⟩
  · rintro ⟨⟨st₁, hparse⟩, hends⟩
    obtain ⟨u, hblock⟩ := (scanBlock_succeeds_iff t entry.2 entry.1
      (mmapPath t st₁ entry.1)).2 hends
    exact Run.succeeds_bind_iff.2 ⟨st₁, hparse,
      Run.succeeds_bind_iff.2 ⟨u, hblock, _, rfl⟩⟩

theorem subset_addSeen (seen : List KinfoVmentry) (kivp : KinfoVmentry) :
    seen ⊆ addSeen seen kivp := by
  rw [addSeen]
  split
  · exact List.Subset.refl _
  · split
    · exact List.Subset.refl _
    · exact List.subset_append_left _ _

theorem subset_foldl_addSeen (map seen : List KinfoVmentry) :
    seen ⊆ map.foldl addSeen seen := by
  induction map generalizing seen with
  | nil => exact List.Subset.refl _
  | cons kivp map ih => exact fun s hs => ih _ (subset_addSeen seen kivp hs)

/-- From a state whose files could be parsed, the loop gets through the
entries when their new files can be and their blocks end. -/
theorem loop_scanEntry_succeeds_iff (t : Target)
    (comparts : List CompartData) (st : ScanState)
    (entries : List (KinfoVmentry × Nat))
    (hst : ∀ s ∈ st.seen, FileParses t s) :
    (Run.loop (scanEntry t comparts) st entries).Succeeds ↔
      (∀ s ∈ (entries.map Prod.fst).foldl addSeen st.seen, FileParses t s) ∧
        ∀ entry ∈ entries, BlockEnds t entry.1 := by
  induction entries generalizing st with
  | nil => exact iff_of_true ⟨st, rfl⟩ ⟨hst, List.forall_mem_nil _⟩
  | cons entry entries ih =>
      rw [Run.loop_cons, Run.succeeds_bind_iff, List.map_cons, List.foldl_cons,
        List.forall_mem_cons]
      have hseen : ∀ st', (scanEntry t comparts st entry).outcome = .ok st' →
          st'.seen = addSeen st.seen entry.1 := by
        intro st' h
        obtain ⟨st₁, hparse, -, -, rfl⟩ := scanEntry_ok h
        have hadded := parseFile_seen hparse
        exact hadded
      constructor
      · rintro ⟨st', hstep, hrest⟩
        obtain ⟨hparse, hends⟩ :=
          (scanEntry_succeeds_iff t comparts st entry).1 ⟨st', hstep⟩
        rw [parseFile_succeeds_iff] at hparse
        have hst' : ∀ s ∈ st'.seen, FileParses t s := by
          intro s hs
          rw [hseen st' hstep] at hs
          by_cases hold : s ∈ st.seen
          · exact hst s hold
          · exact hparse s hs hold
        rw [ih st' hst', hseen st' hstep] at hrest
        exact ⟨hrest.1, hends, hrest.2⟩
      · rintro ⟨hfiles, hends, hrest⟩
        have hparse : (parseFile t st entry.1).Succeeds :=
          (parseFile_succeeds_iff t st entry.1).2 fun s hs _ =>
            hfiles s (subset_foldl_addSeen _ _ hs)
        obtain ⟨st', hstep⟩ :=
          (scanEntry_succeeds_iff t comparts st entry).2 ⟨hparse, hends⟩
        refine ⟨st', hstep, ?_⟩
        rw [ih st' fun s hs => hfiles s (subset_foldl_addSeen _ _
          (hseen st' hstep ▸ hs)), hseen st' hstep]
        exact ⟨hfiles, hrest⟩

/-- The files and the blocks of a map can be scanned. -/
structure MapScannable (t : Target) (map : List KinfoVmentry) : Prop where
  files : ∀ s ∈ seenEntries map, FileParses t s
  blocks : ∀ kivp ∈ map, BlockEnds t kivp

/-- The block loop gets through the map. -/
theorem blocks_succeed_iff (t : Target) (comparts : List CompartData)
    (map : List KinfoVmentry) :
    (Run.loop (scanEntry t comparts) .start map.zipIdx).Succeeds ↔
      MapScannable t map := by
  rw [loop_scanEntry_succeeds_iff t comparts .start _ (List.forall_mem_nil _),
    List.zipIdx_map_fst]
  constructor
  · rintro ⟨hfiles, hblocks⟩
    refine ⟨hfiles, fun kivp hkivp => ?_⟩
    rw [← List.zipIdx_map_fst 0 map] at hkivp
    obtain ⟨entry, hentry, rfl⟩ := List.mem_map.1 hkivp
    exact hblocks entry hentry
  · rintro ⟨hfiles, hblocks⟩
    refine ⟨hfiles, fun entry hentry => hblocks _ ?_⟩
    rw [← List.zipIdx_map_fst 0 map]
    exact List.mem_map_of_mem hentry

/-! ### Scans that complete -/

theorem window_outcome_iff {α : Type} {m : Scan α} {a : α} :
    (WindowMark.window .attach .detach m).outcome = .ok a ↔
      m.outcome = .ok a := by
  constructor
  · intro h
    obtain ⟨_, _, h⟩ := Run.bind_eq_ok h
    obtain ⟨a', hm, h⟩ := Run.bind_eq_ok h
    obtain ⟨_, _, h⟩ := Run.bind_eq_ok h
    cases h
    exact hm
  · intro h
    rw [WindowMark.window, Run.outcome_bind_ok (Run.outcome_emit _),
      Run.outcome_bind_ok h, Run.outcome_bind_ok (Run.outcome_emit _)]
    rfl

/-- The size of a program header is the one expected. -/
def PhentExpected (t : Target) (auxv : List Auxinfo) : Prop :=
  (auxv.foldl auxStep t.auxLocals).2.1.signExtend 64 = t.sizeofPhdr

theorem getRDebug_outcome_iff (t : Target) (debug : RDebug) :
    (getRDebug t).outcome = .ok debug ↔
      ∃ auxv, t.auxv = some auxv ∧ PhentExpected t auxv ∧
        SearchReadable t (auxv.foldl auxStep t.auxLocals).1
          (auxv.foldl auxStep t.auxLocals).2.2 debug := by
  rw [getRDebug_eq]
  cases t.auxv with
  | none => exact iff_of_false nofun nofun
  | some auxv =>
      simp only [Option.some.injEq, exists_eq_left', PhentExpected]
      split
      · next hphent => exact iff_of_false nofun fun h => hphent h.1
      · next hphent =>
          rw [window_outcome_iff, searchRDebug_outcome_iff]
          simp [not_not.1 hphent]

theorem ends_window {α : Type} {m : Scan α} (h : Ends m) :
    Ends (WindowMark.window .attach .detach m) :=
  (Run.stops_mk_ok _ _).bind fun _ => h.bind fun _ =>
    (Run.stops_mk_ok _ _).bind fun _ => Run.stops_pure _

theorem ends_getRDebug (t : Target) : Ends (getRDebug t) := by
  rw [getRDebug_eq]
  cases t.auxv with
  | none => exact Run.stops_stop (by simp)
  | some auxv =>
      dsimp only
      split
      · exact Run.stops_stop (by simp)
      · exact ends_window (ends_searchRDebug _ _ _)

theorem scanRComparts_succeeds_iff (t : Target) (debug : RDebug) :
    (scanRComparts t debug).Succeeds ↔
      ∀ entry ∈ debug.rComparts, CompartReadable entry := by
  rw [← loop_compartStep_succeeds_iff t, scanRComparts_eq]
  simp only [Run.Succeeds, window_outcome_iff]

/-- What holds of a run exactly when its first stage returns and it holds of
the rest, holds of a scan when everything before the block loop can be read and
it holds from there on. -/
theorem scanMap_holds_iff {t : Target} {map : List KinfoVmentry}
    {P : Scan PUnit → Prop}
    (hbind : ∀ {α : Type} (m : Scan α) (f : α → Scan PUnit), Ends m →
      (P (m >>= f) ↔ ∃ a, m.outcome = .ok a ∧ P (f a))) :
    P (scanMap t map) ↔ ∃ debug comparts,
      (getRDebug t).outcome = .ok debug ∧
      (scanRtldLinkmap t debug).outcome = .ok comparts ∧
      (∀ entry ∈ debug.rComparts, CompartReadable entry) ∧
      P (do
        let st ← Run.loop (scanEntry t comparts) ScanState.start map.zipIdx
        insertVmEntries t st.values
        Run.loop updateStep ⟨⟩ st.ssect) := by
  have hlinkmap : ∀ debug, Ends (scanRtldLinkmap t debug) := fun debug =>
    ends_window (Run.Stops.loop (ends_objectStep t) _ _)
  have hcomparts : ∀ debug, Ends (scanRComparts t debug) := fun debug =>
    ends_window (Run.Stops.loop (ends_compartStep t) _ _)
  have hcreate : Ends createTables := Run.stops_mk_ok _ _
  constructor
  · intro h
    obtain ⟨_, _, h⟩ := (hbind _ _ hcreate).1 h
    obtain ⟨debug, hdebug, h⟩ := (hbind _ _ (ends_getRDebug t)).1 h
    obtain ⟨comparts, hlist, h⟩ := (hbind _ _ (hlinkmap debug)).1 h
    obtain ⟨names, hnames, h⟩ := (hbind _ _ (hcomparts debug)).1 h
    exact ⟨debug, comparts, hdebug, hlist,
      (scanRComparts_succeeds_iff t debug).1 ⟨names, hnames⟩, h⟩
  · rintro ⟨debug, comparts, hdebug, hlist, hnames, h⟩
    obtain ⟨names, hnames⟩ := (scanRComparts_succeeds_iff t debug).2 hnames
    refine (hbind _ _ hcreate).2 ⟨⟨⟩, createTables_ok, ?_⟩
    refine (hbind _ _ (ends_getRDebug t)).2 ⟨debug, hdebug, ?_⟩
    refine (hbind _ _ (hlinkmap debug)).2 ⟨comparts, hlist, ?_⟩
    exact (hbind _ _ (hcomparts debug)).2 ⟨names, hnames, h⟩

theorem insertVmEntries_succeeds_iff (t : Target) (values : List VmEntry) :
    (insertVmEntries t values).outcome = .ok ⟨⟩ ↔
      (values = [] → t.pendingVm.Owned) := by
  rw [insertVmEntries]
  split
  · next h => exact iff_of_true rfl fun hnil => absurd hnil h
  · next h =>
      simp only [not_not.1 h, true_imp_iff]
      rcases t.pendingVm with - | ⟨values, - | -⟩ | -
      · exact iff_of_true rfl trivial
      · exact iff_of_false (by intro h; cases h) (by intro h; cases h)
      · exact iff_of_true rfl rfl
      · exact iff_of_false (by intro h; cases h) id

/-- The list of an empty map, which is sent although it was never assigned, can
be read and freed. -/
def ListSendable (t : Target) (map : List KinfoVmentry) : Prop :=
  map = [] → t.pendingVm.Owned

/-- Behind the block loop, the list of `vm` rows decides. -/
theorem blocks_rest_ok_iff {t : Target} {comparts : List CompartData}
    {map : List KinfoVmentry} {st : ScanState}
    (h : (Run.loop (scanEntry t comparts) .start map.zipIdx).outcome =
      .ok st) :
    (insertVmEntries t st.values >>= fun _ =>
      Run.loop updateStep ⟨⟩ st.ssect).outcome = .ok ⟨⟩ ↔
        ListSendable t map := by
  have hnil : st.values = [] ↔ map = [] := by
    rw [← List.length_eq_zero_iff, values_length h, List.length_eq_zero_iff]
  rw [ListSendable, ← hnil, ← insertVmEntries_succeeds_iff]
  constructor
  · intro hok
    obtain ⟨_, hsent, _⟩ := Run.bind_eq_ok hok
    exact hsent
  · intro hsent
    rw [Run.outcome_bind_ok hsent, loop_updateStep]

theorem scanMem_of_map {t : Target} {map : List KinfoVmentry}
    (hprocs : t.procs = some 1) (hmap : t.vmmap = some map) :
    scanMem t = scanMap t map := by
  simp [scanMem, hprocs, hmap]

/-- The process is found, and its map. -/
def FindsMap (t : Target) : Prop :=
  t.procs = some 1 ∧ ∃ map, t.vmmap = some map

theorem scanMem_of_noMap {t : Target} (h : ¬ FindsMap t) :
    scanMem t = Run.stop .errx := by
  rw [scanMem]
  cases hprocs : t.procs with
  | none => rfl
  | some pcnt =>
      by_cases hone : pcnt = 1
      · subst hone
        cases hmap : t.vmmap with
        | none => simp
        | some map => exact absurd ⟨hprocs, map, hmap⟩ h
      · simp [hone]

/-- The process and its map are found, and everything before the block loop can
be read. -/
def ReachesBlocks (t : Target) : Prop := ¬ StopsEarly t ∧ FullyReadable t

theorem ReachesBlocks.findsMap {t : Target} (h : ReachesBlocks t) :
    FindsMap t := by
  obtain ⟨hearly, -⟩ := h
  simp only [StopsEarly, not_or, not_not] at hearly
  exact ⟨hearly.1, Option.ne_none_iff_exists'.1 hearly.2.1⟩

theorem reachesBlocks_iff {t : Target} {map : List KinfoVmentry}
    (hprocs : t.procs = some 1) (hmap : t.vmmap = some map) :
    ReachesBlocks t ↔ ∃ debug, (getRDebug t).outcome = .ok debug ∧
      (∀ obj ∈ debug.rMap, ObjectReadable t obj) ∧
      ∀ entry ∈ debug.rComparts, CompartReadable entry := by
  simp only [getRDebug_outcome_iff]
  constructor
  · rintro ⟨hearly, auxv, debug, hauxv, hsearch, hobjects, hnames⟩
    simp only [StopsEarly, hprocs, hmap, not_or, not_forall, not_not] at hearly
    obtain ⟨-, -, auxv', hauxv', hphent⟩ := hearly
    cases hauxv.symm.trans hauxv'
    exact ⟨debug, ⟨auxv, hauxv, hphent, hsearch⟩, hobjects, hnames⟩
  · rintro ⟨debug, ⟨auxv, hauxv, hphent, hsearch⟩, hobjects, hnames⟩
    refine ⟨?_, auxv, debug, hauxv, hsearch, hobjects, hnames⟩
    simp only [StopsEarly, hprocs, hmap, not_or, not_forall, not_not]
    exact ⟨trivial, by simp, auxv, hauxv, hphent⟩

/-! ### Scans that go on for ever -/

theorem ends_send (hdr : Text) (pending : Unset) :
    Ends (pending.send hdr) := by
  rcases pending with - | ⟨values, owned⟩ | -
  · exact Run.stops_pure _
  · exact Run.stops_mk_ok _ _
  · exact Run.stops_stop (by simp)

theorem ends_free (pending : Unset) : Ends pending.free := by
  rcases pending with - | ⟨values, - | -⟩ | -
  · exact Run.stops_pure _
  · exact Run.stops_stop (by simp)
  · exact Run.stops_pure _
  · exact Run.stops_pure _

theorem ends_sendSymbols (pending : Unset) (values : SymValues) :
    Ends (sendSymbols pending values) := by
  rcases values with - | vs
  · exact ends_send elfSymHdr pending
  · rw [sendSymbols]
    split <;> exact Run.stops_mk_ok _ _

theorem ends_finishSymbols (pending : Unset) (values : SymValues) :
    Ends (finishSymbols pending values) := by
  refine (ends_sendSymbols pending values).bind fun _ => ?_
  rcases values with - | vs
  · exact ends_free pending
  · exact Run.stops_pure _

theorem ends_insertVmEntries (t : Target) (values : List VmEntry) :
    Ends (insertVmEntries t values) := by
  rw [insertVmEntries]
  split
  · exact Run.stops_mk_ok _ _
  · exact (ends_send vmHdr _).bind fun _ => ends_free _

theorem ends_symStep (file : ElfFile) (source : Text) (sourceBase : ULong)
    (s : SymState) (entry : ElfSymbol × Nat) :
    Ends (symStep file source sourceBase s entry) := by
  rw [symStep]
  split
  · exact Run.stops_pure _
  · dsimp only
    split
    · exact (ends_sendSymbols _ _).bind fun _ => Run.stops_pure _
    · exact Run.stops_pure _

theorem ends_sectionLoop (file : ElfFile) (source : Text)
    (sourceBase : ULong) (st : ElfState) (secs : List ElfSection) :
    Ends (sectionLoop file source sourceBase st secs) := by
  induction secs generalizing st with
  | nil => exact Run.stops_pure _
  | cons sec rest ih =>
      rcases hname : sec.name with - | name
      · rw [sectionLoop, hname]
        exact Run.stops_stop (by simp)
      · rw [sectionLoop_cons hname]
        refine Run.Stops.bind ?_ fun syms => ?_
        · rw [sectionSymbols]
          split
          · exact Run.stops_pure _
          · split
            · exact Run.stops_stop (by simp)
            · exact Run.Stops.loop (ends_symStep file source sourceBase) _ _
        · dsimp only
          split
          · exact Run.stops_pure _
          · exact ih _

theorem ends_getElfInfo (file : ElfFile) (source : Text)
    (sourceBase : ULong) : Ends (getElfInfo file source sourceBase) := by
  rw [getElfInfo]
  refine Run.Stops.bind (Run.stops_mk_ok _ _) fun _ => ?_
  split
  · exact Run.stops_pure _
  · split
    · exact Run.stops_pure _
    · exact (ends_sectionLoop _ _ _ _ _).bind fun _ =>
        (ends_finishSymbols _ _).bind fun _ => Run.stops_pure _

theorem ends_parseFile (t : Target) (st : ScanState) (kivp : KinfoVmentry) :
    Ends (parseFile t st kivp) := by
  rw [parseFile]
  split
  · exact Run.stops_pure _
  · split
    · exact Run.stops_pure _
    · refine Run.Stops.bind ?_ fun file =>
        (ends_getElfInfo _ _ _).bind fun _ => Run.stops_pure _
      rw [readElf]
      split
      · exact Run.stops_pure _
      · exact Run.stops_stop (by simp)

/-- The run goes on for ever. -/
def Endless {α : Type} (m : Scan α) : Prop := m.outcome = .error .endless

theorem endless_bind_iff {α β : Type} {m : Scan α} (hm : Ends m)
    (f : α → Scan β) :
    Endless (m >>= f) ↔ ∃ a, m.outcome = .ok a ∧ Endless (f a) := by
  rcases hok : m.outcome with s | a
  · rw [Endless, Run.bind_error hok]
    exact iff_of_false (fun h => hm s hok (Except.error.inj h)) nofun
  · simp [Endless, Run.outcome_bind_ok hok]

/-- A block goes on for ever when its file can be parsed and its page loop does
not end. -/
theorem endless_scanEntry_iff (t : Target) (comparts : List CompartData)
    (st : ScanState) (entry : KinfoVmentry × Nat) :
    Endless (scanEntry t comparts st entry) ↔
      (parseFile t st entry.1).Succeeds ∧ ¬ BlockEnds t entry.1 := by
  have hblock : ∀ path, Endless (scanBlock t entry.2 entry.1 path) ↔
      ¬ BlockEnds t entry.1 := by
    intro path
    rw [← scanBlock_succeeds_iff t entry.2 entry.1 path, Run.not_succeeds_iff]
    constructor
    · exact fun h => ⟨_, h⟩
    · rintro ⟨s, hs⟩
      have hstop : Run.Stops (· = .endless)
          (scanBlock t entry.2 entry.1 path) :=
        (Run.stops_mk_ok _ _).bind fun _ =>
          (endless_of_scanPages _ _ _ _).bind fun _ => Run.stops_mk_ok _ _
      rw [Endless, hs, hstop s hs]
  rw [scanEntry, endless_bind_iff (ends_parseFile t st entry.1), Run.Succeeds]
  simp only [← exists_and_right]
  refine exists_congr fun st₁ => and_congr_right fun _ => ?_
  rw [← hblock (mmapPath t st₁ entry.1)]
  rcases hok : (scanBlock t entry.2 entry.1 (mmapPath t st₁ entry.1)).outcome
    with s | u
  · rw [Endless, Run.bind_error hok, Endless, hok]
    exact ⟨fun h => congrArg _ (Except.error.inj h),
      fun h => congrArg _ (Except.error.inj h)⟩
  · rw [Endless, Run.outcome_bind_ok hok, Endless, hok]
    exact iff_of_false (by simp) (by simp)

/-- The scan of a map reaches a block whose page loop does not end. -/
def MapDiverges (t : Target) (map : List KinfoVmentry) : Prop :=
  ∃ before kivp after, map = before ++ kivp :: after ∧
    (∀ s ∈ seenEntries (before ++ [kivp]), FileParses t s) ∧
    (∀ b ∈ before, BlockEnds t b) ∧ ¬ BlockEnds t kivp

theorem endless_blocks_iff (t : Target) (comparts : List CompartData)
    (map : List KinfoVmentry) :
    Endless (Run.loop (scanEntry t comparts) .start map.zipIdx) ↔
      MapDiverges t map := by
  have hstep : ∀ before kivp i,
      (∃ st, (Run.loop (scanEntry t comparts) .start
          before.zipIdx).outcome = .ok st ∧
        Endless (scanEntry t comparts st (kivp, i))) ↔
      (∀ s ∈ seenEntries (before ++ [kivp]), FileParses t s) ∧
        (∀ b ∈ before, BlockEnds t b) ∧ ¬ BlockEnds t kivp := by
    intro before kivp i
    have hseen : ∀ st, (Run.loop (scanEntry t comparts) .start
        before.zipIdx).outcome = .ok st → st.seen = seenEntries before := by
      intro st h
      rw [(loop_filesParsed h).2, List.zipIdx_map_fst]
    simp only [endless_scanEntry_iff, parseFile_succeeds_iff,
      seenEntries_concat]
    constructor
    · rintro ⟨st, hloop, hnew, hends⟩
      obtain ⟨hfiles, hbefore⟩ := (blocks_succeed_iff t comparts before).1
        ⟨st, hloop⟩
      rw [hseen st hloop] at hnew
      refine ⟨fun s hs => ?_, hbefore, hends⟩
      by_cases hold : s ∈ seenEntries before
      · exact hfiles s hold
      · exact hnew s hs hold
    · rintro ⟨hfiles, hbefore, hends⟩
      have hold : ∀ s ∈ seenEntries before, FileParses t s := fun s hs =>
        hfiles s (subset_addSeen _ _ hs)
      obtain ⟨st, hloop⟩ := (blocks_succeed_iff t comparts before).2
        ⟨hold, hbefore⟩
      refine ⟨st, hloop, fun s hs _ => hfiles s ?_, hends⟩
      rwa [hseen st hloop] at hs
  rw [Endless, Run.loop_eq_error_iff]
  constructor
  · rintro ⟨before, ⟨kivp, i⟩, after, hsplit, st, hloop, hends⟩
    have hmap : map = before.map Prod.fst ++ kivp :: after.map Prod.fst := by
      rw [← List.zipIdx_map_fst 0 map, hsplit, List.map_append, List.map_cons]
    have hzip : (before.map Prod.fst).zipIdx = before := by
      rw [hmap, List.zipIdx_append] at hsplit
      exact List.append_inj_left hsplit (by simp)
    rw [← hzip] at hloop
    exact ⟨_, _, _, hmap, (hstep _ kivp i).1 ⟨st, hloop, hends⟩⟩
  · rintro ⟨before, kivp, after, rfl, h⟩
    obtain ⟨st, hloop, hends⟩ := (hstep before kivp before.length).2 h
    refine ⟨before.zipIdx, (kivp, before.length), after.zipIdx
      (before.length + 1), ?_, st, hloop, hends⟩
    rw [List.zipIdx_append, List.zipIdx_cons, Nat.zero_add]

/-! ### Which scans complete -/

theorem blocks_rest_succeeds_iff (t : Target) (comparts : List CompartData)
    (map : List KinfoVmentry) :
    Run.Succeeds (do
      let st ← Run.loop (scanEntry t comparts) ScanState.start map.zipIdx
      insertVmEntries t st.values
      Run.loop updateStep ⟨⟩ st.ssect : Scan PUnit) ↔
        MapScannable t map ∧ ListSendable t map := by
  rw [Run.succeeds_bind_iff, ← blocks_succeed_iff t comparts map]
  constructor
  · rintro ⟨st, hloop, u, hrest⟩
    exact ⟨⟨st, hloop⟩, (blocks_rest_ok_iff hloop).1 hrest⟩
  · rintro ⟨⟨st, hloop⟩, hlist⟩
    exact ⟨st, hloop, ⟨⟩, (blocks_rest_ok_iff hloop).2 hlist⟩

/-- The block loop is reached, and gets through the map, exactly when everything
before it can be read and the map can be scanned. -/
theorem scanBlocks_succeeds_iff {t : Target} {map : List KinfoVmentry}
    (hprocs : t.procs = some 1) (hmap : t.vmmap = some map) :
    (scanBlocks t map).Succeeds ↔ ReachesBlocks t ∧ MapScannable t map := by
  rw [reachesBlocks_iff hprocs hmap]
  constructor
  · rintro ⟨st, h⟩
    obtain ⟨_, _, h⟩ := Run.bind_eq_ok h
    obtain ⟨debug, hdebug, h⟩ := Run.bind_eq_ok h
    obtain ⟨comparts, hlist, h⟩ := Run.bind_eq_ok h
    obtain ⟨names, hnames, h⟩ := Run.bind_eq_ok h
    exact ⟨⟨debug, hdebug, scanRtldLinkmap_succeeds_iff.1 ⟨comparts, hlist⟩,
        (scanRComparts_succeeds_iff t debug).1 ⟨names, hnames⟩⟩,
      (blocks_succeed_iff t comparts map).1 ⟨st, h⟩⟩
  · rintro ⟨⟨debug, hdebug, hobjects, hnames⟩, hscannable⟩
    obtain ⟨comparts, hlist⟩ := scanRtldLinkmap_succeeds_iff.2 hobjects
    obtain ⟨names, hnames⟩ := (scanRComparts_succeeds_iff t debug).2 hnames
    obtain ⟨st, hloop⟩ := (blocks_succeed_iff t comparts map).2 hscannable
    refine ⟨st, ?_⟩
    rw [scanBlocks, Run.outcome_bind_ok createTables_ok,
      Run.outcome_bind_ok hdebug, Run.outcome_bind_ok hlist,
      Run.outcome_bind_ok hnames]
    exact hloop

theorem blocks_rest_endless_iff (t : Target) (comparts : List CompartData)
    (map : List KinfoVmentry) :
    Endless (do
      let st ← Run.loop (scanEntry t comparts) ScanState.start map.zipIdx
      insertVmEntries t st.values
      Run.loop updateStep ⟨⟩ st.ssect : Scan PUnit) ↔ MapDiverges t map := by
  rw [← endless_blocks_iff t comparts map]
  rcases hok : (Run.loop (scanEntry t comparts) .start map.zipIdx).outcome
    with s | st
  · rw [Endless, Run.bind_error hok, Endless, hok]
    exact ⟨fun h => congrArg _ (Except.error.inj h),
      fun h => congrArg _ (Except.error.inj h)⟩
  · have hrest : Ends (insertVmEntries t st.values >>= fun _ =>
        Run.loop updateStep ⟨⟩ st.ssect) :=
      (ends_insertVmEntries t st.values).bind fun _ => by
        rw [loop_updateStep]
        exact Run.stops_mk_ok _ _
    rw [Endless, Run.outcome_bind_ok hok, Endless, hok]
    exact iff_of_false (fun h => hrest _ h rfl) nofun

/-- What holds from the block loop on exactly when `good` does, holds of a scan
when everything before it can be read and `good` does. -/
theorem scanMem_holds_iff {t : Target} {P : Scan PUnit → Prop}
    {good : List KinfoVmentry → Prop}
    (hbind : ∀ {α : Type} (m : Scan α) (f : α → Scan PUnit), Ends m →
      (P (m >>= f) ↔ ∃ a, m.outcome = .ok a ∧ P (f a)))
    (herrx : ¬ P (Run.stop .errx))
    (hgood : ∀ comparts map, P (do
        let st ← Run.loop (scanEntry t comparts) ScanState.start map.zipIdx
        insertVmEntries t st.values
        Run.loop updateStep ⟨⟩ st.ssect) ↔ good map) :
    P (scanMem t) ↔
      ReachesBlocks t ∧ ∃ map, t.vmmap = some map ∧ good map := by
  by_cases hfound : FindsMap t
  · obtain ⟨hprocs, map, hmap⟩ := hfound
    rw [scanMem_of_map hprocs hmap, scanMap_holds_iff hbind,
      reachesBlocks_iff hprocs hmap]
    simp only [hgood, hmap, Option.some.injEq, exists_eq_left']
    constructor
    · rintro ⟨debug, comparts, hdebug, hlist, hnames, hblocks⟩
      exact ⟨⟨debug, hdebug,
        scanRtldLinkmap_succeeds_iff.1 ⟨comparts, hlist⟩, hnames⟩, hblocks⟩
    · rintro ⟨⟨debug, hdebug, hobjects, hnames⟩, hblocks⟩
      obtain ⟨comparts, hlist⟩ := scanRtldLinkmap_succeeds_iff.2 hobjects
      exact ⟨debug, comparts, hdebug, hlist, hnames, hblocks⟩
  · rw [scanMem_of_noMap hfound]
    exact iff_of_false herrx fun h => hfound h.1.findsMap

/-- A scan completes exactly when the process and its map are found, every
structure before the block loop and every new file can be read, the pages of
every block end, and no list is sent unassigned from an address that cannot be
read or freed; it goes on for ever exactly when it gets as far as a block whose
pages do not end. -/
theorem scanMem_completes_iff (t : Target) :
    ((scanMem t).Succeeds ↔
      ReachesBlocks t ∧ ∃ map, t.vmmap = some map ∧ MapScannable t map ∧
        ListSendable t map) ∧
    (Endless (scanMem t) ↔
      ReachesBlocks t ∧ ∃ map, t.vmmap = some map ∧ MapDiverges t map) := by
  constructor
  · refine scanMem_holds_iff (fun m f _ => Run.succeeds_bind_iff) ?_
      fun comparts map => blocks_rest_succeeds_iff t comparts map
    rintro ⟨_, h⟩
    cases h
  · exact scanMem_holds_iff (fun m f hm => endless_bind_iff hm f) nofun
      fun comparts map => blocks_rest_endless_iff t comparts map

end Chericat
