import Chericat.TableConsistency

/-!
The attach windows of a scan.  Its requests to the target always form windows;
the last of them is left open when the program ends inside of one of the three
windows before the block loop.
-/

namespace Chericat

open WindowMark

def Event.mark : Event → WindowMark
  | .attach => .opens
  | .detach => .closes
  | .io _ => .inside
  | .exec _ => .free

theorem Event.Within.fits {tb : Table} {e : Event} (h : e.Within true tb) :
    e.mark = .free ∨ e.mark = .inside := by
  cases e with
  | exec s => exact Or.inl rfl
  | io a => exact Or.inr rfl
  | attach => exact h.elim
  | detach => exact h.elim

theorem Event.Within.free {tb : Table} {e : Event} (h : e.Within false tb) :
    e.mark = .free := by
  cases e with
  | exec s => rfl
  | io a => cases h
  | attach => exact h.elim
  | detach => exact h.elim

/-- Where a run leaves the target: attached, detached, or nowhere, when its
requests are not a sequence of windows. -/
def attached {α : Type} (m : Scan α) : Option Bool := after Event.mark m

theorem fits_of_within {α : Type} {m : Scan α} {tb : Table}
    (h : Run.Emits (Event.Within true tb) m) : Fits Event.mark m :=
  fun e he => (h e he).fits

theorem attached_of_within {α : Type} {m : Scan α} {tb : Table}
    (h : Run.Emits (Event.Within false tb) m) : attached m = some false :=
  after_free Event.mark fun e he => (h e he).free

/-- A window around requests and statements. -/
theorem attached_window {α : Type} {m : Scan α} {tb : Table}
    (h : Run.Emits (Event.Within true tb) m) :
    (∃ a, m.outcome = .ok a ∧
        (window .attach .detach m).outcome = .ok a ∧
        attached (window .attach .detach m) = some false) ∨
      ∃ s, m.outcome = .error s ∧
        (window .attach .detach m).outcome = .error s ∧
        attached (window .attach .detach m) = some true :=
  window_cases rfl rfl (fits_of_within h)

/-! ### Reads that succeed -/

/-- The chain of reads that leads to `r_debug`. -/
structure SearchReadable (t : Target) (phdr : ULong) (phnum : CInt)
    (debug : RDebug) : Prop where
  reads : ∃ phdrs dyns, t.readPhdrs phdr phnum = .ok phdrs ∧
    (findDynamic t phnum phdrs).1 ≠ 0 ∧
    t.readDyns ((findDynamic t phnum phdrs).1 + (phdr - t.sizeofEhdr))
      (findDynamic t phnum phdrs).2 = .ok dyns ∧
    findDebug t (findDynamic t phnum phdrs).2 dyns ≠ 0 ∧
    t.readRDebug (findDebug t (findDynamic t phnum phdrs).2 dyns) = .ok debug

/-- A sub-compartment and its name. -/
def SubcompartReadable (t : Target) (sub : Remote CompartEntry) : Prop :=
  ∃ entry, sub.read = .ok entry ∧
    (t.getString entry.compartName).result ≠ none

/-- A link-map object, its path and its sub-compartments. -/
def ObjectReadable (t : Target) (obj : Remote ObjEntry) : Prop :=
  ∃ entry, obj.read = .ok entry ∧ (t.getString entry.lName).result ≠ none ∧
    ∀ sub ∈ entry.comparts, SubcompartReadable t sub

/-- An element of the compartment array. -/
def CompartReadable (entry : Remote ULong) : Prop :=
  ∃ name, entry.read = .ok name

theorem piodRead_outcome_iff {α : Type} {addr : ULong} {r : ReadResult α}
    {a : α} : (piodRead addr r).outcome = .ok a ↔ r = .ok a := by
  constructor
  · exact piodRead_ok
  · rintro rfl
    rfl

theorem assertNonzero_outcome_iff {p : ULong} :
    (assertNonzero p).outcome = .ok ⟨⟩ ↔ p ≠ 0 := by
  rw [assertNonzero]
  split
  · next h => simpa using h
  · next h => simpa using h

theorem searchRDebug_outcome_iff (t : Target) (phdr : ULong) (phnum : CInt)
    (debug : RDebug) :
    (searchRDebug t phdr phnum).outcome = .ok debug ↔
      SearchReadable t phdr phnum debug := by
  constructor
  · intro h
    obtain ⟨phdrs, hphdrs, h⟩ := Run.bind_eq_ok h
    obtain ⟨_, hdyn, h⟩ := Run.bind_eq_ok h
    obtain ⟨dyns, hdyns, h⟩ := Run.bind_eq_ok h
    obtain ⟨_, hdebug, h⟩ := Run.bind_eq_ok h
    exact ⟨phdrs, dyns, piodRead_ok hphdrs, assertNonzero_outcome_iff.1 hdyn,
      piodRead_ok hdyns, assertNonzero_outcome_iff.1 hdebug, piodRead_ok h⟩
  · rintro ⟨phdrs, dyns, hphdrs, hdyn, hdyns, hdebug, hread⟩
    rw [searchRDebug, Run.outcome_bind_ok (piodRead_outcome_iff.2 hphdrs),
      Run.outcome_bind_ok (assertNonzero_outcome_iff.2 hdyn),
      Run.outcome_bind_ok (piodRead_outcome_iff.2 hdyns),
      Run.outcome_bind_ok (assertNonzero_outcome_iff.2 hdebug)]
    exact piodRead_outcome_iff.2 hread

theorem getFilenameFromPath_succeeds_iff {path : Option Text} :
    Run.Succeeds (getFilenameFromPath path) ↔ path ≠ none := by
  cases path <;> simp [Run.Succeeds, getFilenameFromPath]

theorem subcompartStep_succeeds_iff (t : Target) (parent : Nat) (u : PUnit)
    (sub : Remote CompartEntry) :
    Run.Succeeds (subcompartStep t parent u sub) ↔
      SubcompartReadable t sub := by
  rw [subcompartStep, Run.succeeds_bind_iff]
  simp only [piodRead_outcome_iff, SubcompartReadable]
  refine exists_congr fun entry => and_congr_right fun _ => ?_
  rw [Run.succeeds_bind_iff, ← getFilenameFromPath_succeeds_iff]
  constructor
  · rintro ⟨name, hname, h⟩
    cases hname
    obtain ⟨file, hfile, _⟩ := Run.succeeds_bind_iff.1 h
    exact ⟨file, hfile⟩
  · rintro ⟨file, hfile⟩
    exact ⟨_, rfl, Run.succeeds_bind_iff.2 ⟨file, hfile, _, rfl⟩⟩

theorem objectStep_succeeds_iff (t : Target) (head : List CompartData)
    (obj : Remote ObjEntry) :
    Run.Succeeds (objectStep t head obj) ↔ ObjectReadable t obj := by
  rw [objectStep, Run.succeeds_bind_iff]
  simp only [piodRead_outcome_iff, ObjectReadable]
  refine exists_congr fun entry => and_congr_right fun _ => ?_
  rw [Run.succeeds_bind_iff, ← getFilenameFromPath_succeeds_iff,
    ← Run.loop_succeeds_iff (subcompartStep_succeeds_iff t
      entry.defaultCompartId) ⟨⟩ entry.comparts]
  constructor
  · rintro ⟨path, hpath, h⟩
    cases hpath
    obtain ⟨file, hfile, h⟩ := Run.succeeds_bind_iff.1 h
    obtain ⟨_, _, h⟩ := Run.succeeds_bind_iff.1 h
    obtain ⟨u, hu, _⟩ := Run.succeeds_bind_iff.1 h
    exact ⟨⟨file, hfile⟩, u, hu⟩
  · rintro ⟨⟨file, hfile⟩, u, hu⟩
    refine ⟨_, rfl, Run.succeeds_bind_iff.2 ⟨file, hfile, ?_⟩⟩
    exact Run.succeeds_bind_iff.2 ⟨⟨⟩, rfl,
      Run.succeeds_bind_iff.2 ⟨u, hu, _, rfl⟩⟩

theorem compartStep_succeeds_iff (t : Target) (names : List (Option Text))
    (entry : Remote ULong × Nat) :
    Run.Succeeds (compartStep t names entry) ↔ CompartReadable entry.1 := by
  rw [compartStep, Run.succeeds_bind_iff]
  simp only [piodRead_outcome_iff, CompartReadable]
  refine exists_congr fun name => and_iff_left_of_imp fun _ => ?_
  refine Run.succeeds_bind_iff.2 ⟨_, rfl, ?_⟩
  cases (t.getString name).result <;> exact ⟨_, rfl⟩

/-! ### How the stages stop -/

/-- The run does not go on for ever. -/
def Ends {α : Type} (m : Scan α) : Prop := Run.Stops (· ≠ .endless) m

theorem ends_piodRead {α : Type} (addr : ULong) (r : ReadResult α) :
    Ends (piodRead addr r) := by
  rw [piodRead_eq]
  intro s h
  cases r <;> cases h <;> exact nofun

theorem ends_assertNonzero (p : ULong) : Ends (assertNonzero p) := by
  rw [assertNonzero]
  split
  · exact Run.stops_pure _
  · exact Run.stops_stop (by simp)

theorem ends_getFilenameFromPath (path : Option Text) :
    Ends (getFilenameFromPath path) := by
  cases path
  · exact Run.stops_stop (by simp)
  · exact Run.stops_pure _

theorem ends_searchRDebug (t : Target) (phdr : ULong) (phnum : CInt) :
    Ends (searchRDebug t phdr phnum) :=
  (ends_piodRead _ _).bind fun _ => (ends_assertNonzero _).bind fun _ =>
    (ends_piodRead _ _).bind fun _ => (ends_assertNonzero _).bind fun _ =>
    ends_piodRead _ _

theorem ends_objectStep (t : Target) (head : List CompartData)
    (obj : Remote ObjEntry) : Ends (objectStep t head obj) :=
  (ends_piodRead _ _).bind fun _ => (Run.stops_mk_ok _ _).bind fun _ =>
    (ends_getFilenameFromPath _).bind fun _ =>
    (Run.stops_mk_ok _ _).bind fun _ =>
    (Run.Stops.loop (fun _ _ =>
      (ends_piodRead _ _).bind fun _ => (Run.stops_mk_ok _ _).bind fun _ =>
      (ends_getFilenameFromPath _).bind fun _ => Run.stops_mk_ok _ _)
      _ _).bind fun _ =>
    Run.stops_pure _

theorem ends_compartStep (t : Target) (names : List (Option Text))
    (entry : Remote ULong × Nat) : Ends (compartStep t names entry) := by
  refine (ends_piodRead _ _).bind fun _ => (Run.stops_mk_ok _ _).bind fun n => ?_
  cases n
  · exact Run.stops_pure _
  · exact (Run.stops_mk_ok _ _).bind fun _ => Run.stops_pure _

/-- A page loop that does not end is the only way a block's window stays
open. -/
theorem endless_of_scanPages (t : Target) (m : Memory) (kivp : KinfoVmentry)
    (path : Text) :
    Run.Stops (· = .endless) (scanPages t m kivp path) := by
  have hloop : ∀ turns start, Run.Stops (· = .endless)
      (pageLoop t m path turns start kivp.kveEnd) := by
    intro turns
    induction turns with
    | zero =>
        intro start
        rw [pageLoop]
        split
        · exact Run.stops_stop rfl
        · exact Run.stops_pure _
    | succ turns ih =>
        intro start
        rw [pageLoop]
        split
        · refine Run.Stops.bind ?_ fun _ => ih _
          rw [getTags_eq]
          exact Run.stops_mk_ok _ _
        · exact Run.stops_pure _
  rw [scanPages]
  split
  · exact hloop _ _
  · exact Run.stops_pure _

/-! ### Windows that are closed -/

/-- The requests form windows, and the last of them is closed wherever the
program stops. -/
structure Detaches {α : Type} (m : Scan α) : Prop where
  windows : ∃ b, attached m = some b
  closed : m.outcome ≠ .error .endless → attached m = some false

theorem detaches_of_attached {α : Type} {m : Scan α}
    (h : attached m = some false) : Detaches m :=
  ⟨⟨false, h⟩, fun _ => h⟩

theorem detaches_bind_ok {α β : Type} {m : Scan α} {a : α}
    (h : m.outcome = .ok a) (hm : attached m = some false)
    (f : α → Scan β) : Detaches (m >>= f) ↔ Detaches (f a) := by
  have hafter : attached (m >>= f) = attached (f a) :=
    after_bind_ok Event.mark h hm f
  have houtcome := Run.outcome_bind_ok h f
  constructor
  · rintro ⟨hwindows, hclosed⟩
    rw [hafter] at hwindows hclosed
    rw [houtcome] at hclosed
    exact ⟨hwindows, hclosed⟩
  · rintro ⟨hwindows, hclosed⟩
    rw [← hafter] at hwindows hclosed
    rw [← houtcome] at hclosed
    exact ⟨hwindows, hclosed⟩

/-- Where a run stops, what would have come next does not matter. -/
theorem Detaches.bind_error {α β : Type} {m : Scan α} {s : Stop}
    (hm : Detaches m) (h : m.outcome = .error s) (f : α → Scan β) :
    Detaches (m >>= f) := by
  obtain ⟨hwindows, hclosed⟩ := hm
  have hafter : attached (m >>= f) = attached m :=
    after_bind_error Event.mark h f
  constructor
  · rw [hafter]
    exact hwindows
  · intro hne
    rw [hafter]
    apply hclosed
    rw [Run.bind_error h] at hne
    rw [h]
    exact fun heq => hne (congrArg Except.error (Except.error.inj heq))

/-- A stage in a window lets the target go exactly when it returns and what
comes next does. -/
theorem detaches_window_bind {α β : Type} {m : Scan α} {tb : Table}
    (hwithin : Run.Emits (Event.Within true tb) m) (hends : Ends m)
    (f : α → Scan β) :
    Detaches (window .attach .detach m >>= f) ↔
      ∃ a, m.outcome = .ok a ∧ Detaches (f a) := by
  rcases attached_window hwithin with
    ⟨a, hm, hok, hclosed⟩ | ⟨s, hm, herror, hopen⟩
  · rw [detaches_bind_ok hok hclosed f]
    constructor
    · exact fun h => ⟨a, hm, h⟩
    · rintro ⟨a', ha', h⟩
      rw [hm] at ha'
      cases ha'
      exact h
  · have hafter : attached (window .attach .detach m >>= f) = some true :=
      (after_bind_error Event.mark herror f).trans hopen
    have houtcome : (window .attach .detach m >>= f).outcome = .error s := by
      rw [Run.bind_error herror]
    constructor
    · intro h
      have hend : s ≠ .endless := hends s hm
      have hclosed := h.closed (by
        rw [houtcome]
        exact fun heq => hend (Except.error.inj heq))
      rw [hafter] at hclosed
      cases hclosed
    · rintro ⟨a, ha, _⟩
      rw [hm] at ha
      cases ha

/-! ### The block loop -/

/-- Where one block leaves the target. -/
theorem scanEntry_windows (t : Target) (comparts : List CompartData)
    (st : ScanState) (entry : KinfoVmentry × Nat) :
    Detaches (scanEntry t comparts st entry) ∧
      ∀ st', (scanEntry t comparts st entry).outcome = .ok st' →
        attached (scanEntry t comparts st entry) = some false := by
  have hparse : attached (parseFile t st entry.1) = some false :=
    attached_of_within (within_parseFile t st entry.1)
  have hdetaches : Detaches (scanEntry t comparts st entry) := by
    rw [scanEntry]
    cases hst : (parseFile t st entry.1).outcome with
    | error s => exact (detaches_of_attached hparse).bind_error hst _
    | ok st₁ =>
        rw [detaches_bind_ok hst hparse, scanBlock_eq]
        have hwithin := within_scanPages t (t.memory entry.2) entry.1
          (mmapPath t st₁ entry.1)
        rcases attached_window hwithin with
          ⟨a, hm, hok, hclosed⟩ | ⟨s, hm, herror, hopen⟩
        · rw [detaches_bind_ok hok hclosed]
          exact detaches_of_attached rfl
        · have hendless := endless_of_scanPages t (t.memory entry.2) entry.1 _ s hm
          rw [Run.bind_error herror]
          refine ⟨⟨true, hopen⟩, fun hne => absurd ?_ hne⟩
          rw [hendless]
  exact ⟨hdetaches, fun st' hst' => hdetaches.closed (by simp [hst'])⟩

theorem loop_windows (t : Target) (comparts : List CompartData)
    (st : ScanState) (entries : List (KinfoVmentry × Nat)) :
    Detaches (Run.loop (scanEntry t comparts) st entries) := by
  induction entries generalizing st with
  | nil => exact detaches_of_attached rfl
  | cons e es ih =>
      obtain ⟨hdetaches, hreturned⟩ := scanEntry_windows t comparts st e
      rw [Run.loop_cons]
      cases hst : (scanEntry t comparts st e).outcome with
      | ok st' =>
          rw [detaches_bind_ok hst (hreturned st' hst)]
          exact ih st'
      | error s => exact hdetaches.bind_error hst _

/-- From the block loop on, the target is let go. -/
theorem blocks_detach (t : Target) (comparts : List CompartData)
    (map : List KinfoVmentry) :
    Detaches (do
      let st ← Run.loop (scanEntry t comparts) ScanState.start map.zipIdx
      insertVmEntries t st.values
      Run.loop updateStep ⟨⟩ st.ssect) := by
  have hloop := loop_windows t comparts .start map.zipIdx
  cases hst : (Run.loop (scanEntry t comparts) .start map.zipIdx).outcome with
  | error s => exact hloop.bind_error hst _
  | ok st =>
      rw [detaches_bind_ok hst (hloop.closed (by rw [hst]; exact nofun))]
      apply detaches_of_attached
      refine attached_of_within ((within_insertVmEntries t st.values).bind
        fun _ => ?_)
      rw [loop_updateStep]
      intro e he
      obtain ⟨r, _, rfl⟩ := List.mem_map.mp he
      exact Or.inr rfl

/-! ### The whole scan -/

/-- The scan ends before it attaches. -/
def StopsEarly (t : Target) : Prop :=
  t.procs ≠ some 1 ∨ t.vmmap = none ∨ ∀ auxv, t.auxv = some auxv →
    (auxv.foldl auxStep t.auxLocals).2.1.signExtend 64 ≠ t.sizeofPhdr

/-- Everything that the scan reads in the windows before the block loop can be
read. -/
def FullyReadable (t : Target) : Prop :=
  ∃ auxv debug, t.auxv = some auxv ∧
    SearchReadable t (auxv.foldl auxStep t.auxLocals).1
      (auxv.foldl auxStep t.auxLocals).2.2 debug ∧
    (∀ obj ∈ debug.rMap, ObjectReadable t obj) ∧
    ∀ entry ∈ debug.rComparts, CompartReadable entry

theorem loop_compartStep_succeeds_iff (t : Target)
    (comparts : List (Remote ULong)) :
    Run.Succeeds (Run.loop (compartStep t) [] comparts.zipIdx) ↔
      ∀ entry ∈ comparts, CompartReadable entry := by
  rw [Run.loop_succeeds_iff (compartStep_succeeds_iff t)]
  conv_rhs => rw [← List.zipIdx_map_fst 0 comparts]
  simp only [List.mem_map, forall_exists_index, and_imp,
    forall_apply_eq_imp_iff₂]

/-- With the size of a program header as expected, the target is let go
exactly when everything in the first three windows can be read. -/
theorem scanMap_detaches_iff {t : Target} (map : List KinfoVmentry)
    {auxv : List Auxinfo} (hauxv : t.auxv = some auxv)
    (hphent : (auxv.foldl auxStep t.auxLocals).2.1.signExtend 64 =
      t.sizeofPhdr) :
    Detaches (scanMap t map) ↔ FullyReadable t := by
  have hsearch : getRDebug t = window .attach .detach
      (searchRDebug t (auxv.foldl auxStep t.auxLocals).1
        (auxv.foldl auxStep t.auxLocals).2.2) := by
    rw [getRDebug_eq, hauxv]
    exact if_neg (not_not_intro hphent)
  rw [scanMap, detaches_bind_ok createTables_ok
      (@attached_of_within _ _ .vm within_createTables), hsearch,
    @detaches_window_bind _ _ _ .vm (within_searchRDebug t _ _)
      (ends_searchRDebug t _ _)]
  simp only [scanRtldLinkmap_eq, scanRComparts_eq, searchRDebug_outcome_iff,
    detaches_window_bind (Run.Emits.loop (within_objectStep t) _ _)
      (Run.Stops.loop (ends_objectStep t) _ _),
    detaches_window_bind (Run.Emits.loop (within_compartStep t) _ _)
      (Run.Stops.loop (ends_compartStep t) _ _)]
  constructor
  · rintro ⟨debug, hdebug, comparts, hcomparts, names, hnames, _⟩
    exact ⟨auxv, debug, hauxv, hdebug,
      (Run.loop_succeeds_iff (objectStep_succeeds_iff t) [] _).1
        ⟨comparts, hcomparts⟩,
      (loop_compartStep_succeeds_iff t _).1 ⟨names, hnames⟩⟩
  · rintro ⟨auxv', debug, hauxv', hdebug, hobjects, hnames⟩
    rw [hauxv, Option.some.injEq] at hauxv'
    subst hauxv'
    obtain ⟨comparts, hcomparts⟩ :=
      (Run.loop_succeeds_iff (objectStep_succeeds_iff t) [] _).2 hobjects
    obtain ⟨names, hnames⟩ := (loop_compartStep_succeeds_iff t _).2 hnames
    exact ⟨debug, hdebug, comparts, hcomparts, names, hnames,
      blocks_detach t comparts map⟩

theorem detaches_of_stopsEarly {t : Target} (h : StopsEarly t) :
    Detaches (scanMem t) := by
  rw [scanMem]
  cases hprocs : t.procs with
  | none => exact detaches_of_attached rfl
  | some pcnt =>
      dsimp only
      split
      · exact detaches_of_attached rfl
      · next hone =>
          cases hmap : t.vmmap with
          | none => exact detaches_of_attached rfl
          | some map =>
              have hone' : pcnt = 1 := not_not.mp hone
              have hmismatch := (h.resolve_left (by simp [hprocs, hone'])
                ).resolve_left (by simp [hmap])
              dsimp only
              rw [scanMap, detaches_bind_ok createTables_ok
                (@attached_of_within _ _ .vm within_createTables)]
              obtain ⟨s, hs⟩ : ∃ s, getRDebug t = Run.stop s := by
                rw [getRDebug_eq]
                cases hauxv : t.auxv with
                | none => exact ⟨_, rfl⟩
                | some auxv => exact ⟨_, if_pos (hmismatch auxv hauxv)⟩
              rw [hs, Run.stop_bind]
              exact detaches_of_attached rfl

/-- The target is never left attached if and only if the scan ends before it
attaches, or can read everything it reads before the block loop. -/
theorem scanMem_detaches_iff (t : Target) :
    Detaches (scanMem t) ↔ StopsEarly t ∨ FullyReadable t := by
  by_cases hearly : StopsEarly t
  · simp only [hearly, true_or, iff_true]
    exact detaches_of_stopsEarly hearly
  · simp only [hearly, false_or]
    simp only [StopsEarly, not_or, not_forall, not_not] at hearly
    obtain ⟨hprocs, hvmmap, auxv, hauxv, hphent⟩ := hearly
    obtain ⟨map, hmap⟩ := Option.ne_none_iff_exists'.mp hvmmap
    have hscan : scanMem t = scanMap t map := by
      simp [scanMem, hprocs, hmap]
    rw [hscan, scanMap_detaches_iff map hauxv hphent]

/-- A process whose first program-header read fails. -/
def unreadableTarget : Target :=
  { Target.sample [] fullMemory with readPhdrs := fun _ _ => .failed }

/-- It is left attached when the failed read ends the program. -/
theorem unreadable_target_attached :
    (scanMem unreadableTarget).outcome = .error .errx ∧
      attached (scanMem unreadableTarget) = some true ∧
      ¬ Detaches (scanMem unreadableTarget) := by
  have hopen : attached (scanMem unreadableTarget) = some true := by
    decide
  refine ⟨rfl, hopen, fun h => ?_⟩
  have hclosed := h.closed nofun
  rw [hopen] at hclosed
  cases hclosed

end Chericat
