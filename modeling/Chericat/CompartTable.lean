import Chericat.CompartAttribution
import Chericat.Rescan
import Chericat.SectionLabels

/-!
What a scan leaves in `comparts`.  The table is keyed by compartment id, while
the list of the link map has an element for each object.
-/

namespace Chericat

open Numeral

/-! ### Statements that replace rows -/

/-- The row of an object, as it is sent. -/
def LinkObject.compart (o : LinkObject) : DefaultCompart where
  compartId := o.defaultCompartId
  libraryPath := fileName o.path
  startAddr := o.mapbase
  endAddr := o.mapbase + o.mapsize
  isDefault := 1

/-- The last object of the link map with this id. -/
def lastObject (objs : List LinkObject) (id : Int) : Option LinkObject :=
  objs.reverse.find? fun o => (o.defaultCompartId : Int) = id

theorem lastObject_concat (objs : List LinkObject) (o : LinkObject)
    (id : Int) :
    lastObject (objs ++ [o]) id =
      if id = o.defaultCompartId then some o else lastObject objs id := by
  rw [lastObject, List.reverse_append, List.reverse_singleton,
    List.singleton_append, List.find?_cons]
  by_cases h : (o.defaultCompartId : Int) = id
  · simp [h]
  · simp [h, Ne.symm h, lastObject]

theorem lastObject_mem {objs : List LinkObject} {id : Int} {o : LinkObject}
    (h : lastObject objs id = some o) :
    o ∈ objs ∧ (o.defaultCompartId : Int) = id := by
  have hid := List.find?_some h
  exact ⟨List.mem_reverse.mp (List.mem_of_find?_eq_some h),
    of_decide_eq_true hid⟩

theorem exists_lastObject {objs : List LinkObject} {o : LinkObject}
    (h : o ∈ objs) : ∃ o', lastObject objs o.defaultCompartId = some o' := by
  rw [← Option.isSome_iff_exists, lastObject, List.find?_isSome]
  exact ⟨o, List.mem_reverse.mpr h, by simp⟩

/-- The row with an id is that of the last object with it. -/
theorem onRow_objects (objs : List LinkObject) (id : Int)
    (row : Option CompInfo) :
    (objs.map fun o => .replaceDefault o.compart).foldl (Statement.onRow id)
        row =
      ((lastObject objs id).map fun o => o.compart.row).or row := by
  induction objs using List.reverseRecOn with
  | nil => rfl
  | append_singleton objs o ih =>
      rw [List.map_append, List.foldl_append, ih, lastObject_concat]
      by_cases h : id = o.defaultCompartId
      · rw [if_pos h]
        simp [Statement.onRow, LinkObject.compart, h]
      · rw [if_neg h]
        simp [Statement.onRow, LinkObject.compart, h]

theorem Spare.onRow {ss : List Statement} (h : Spare .comparts ss) (id : Int)
    (row : Option CompInfo) : ss.foldl (Statement.onRow id) row = row := by
  induction ss with
  | nil => rfl
  | cons s ss ih =>
      have hs := h s List.mem_cons_self
      have hself : s.onRow id row = row := by
        cases s <;> simp_all [Statement.writes, Statement.onRow]
      rw [List.foldl_cons, hself]
      exact ih fun s hs => h s (List.mem_cons_of_mem _ hs)

/-- Statements that only give names to rows. -/
def OnlyNames (ss : List Statement) : Prop :=
  ∀ s ∈ ss, ∃ name id, s = .updateCompartName name id

/-- They keep the other columns of a row, and make no row. -/
theorem OnlyNames.onRow {ss : List Statement} (h : OnlyNames ss) (id : Int)
    (row : Option CompInfo) :
    ss.foldl (Statement.onRow id) row = row ∨
      ∃ name, ss.foldl (Statement.onRow id) row =
        row.map (CompInfo.rename name) := by
  induction ss using List.reverseRecOn with
  | nil => exact Or.inl rfl
  | append_singleton ss s ih =>
      have hss : OnlyNames ss := fun s hs =>
        h s (List.mem_append.mpr (Or.inl hs))
      obtain ⟨name, i, rfl⟩ := h s (by simp)
      rw [List.foldl_append, List.foldl_cons, List.foldl_nil, Statement.onRow]
      split
      · right
        refine ⟨some name, ?_⟩
        rcases ih hss with hkeep | ⟨_, hname⟩
        · rw [hkeep]
        · rw [hname, Option.map_map]
          rfl
      · exact ih hss

/-! ### The link map -/

/-- A sub-compartment as the scan reads it. -/
structure Subobject where
  name : Text
  compartId : Nat
  start : ULong
  stop : ULong
deriving Repr, DecidableEq

/-- An object with its sub-compartments. -/
structure CompartObject where
  object : LinkObject
  subs : List Subobject
deriving Repr, DecidableEq

def subobject (t : Target) (sub : Remote CompartEntry) : Option Subobject :=
  match sub.read with
  | .ok entry =>
      (t.getString entry.compartName).result.map fun name =>
        ⟨name, entry.compartId, entry.start, entry.stop⟩
  | _ => none

/-- What the scan reads of an object is `o`. -/
structure ReadsObject (t : Target) (obj : Remote ObjEntry)
    (o : CompartObject) : Prop where
  object : linkObject t obj = some o.object
  subs : ∀ entry, obj.read = .ok entry →
    entry.comparts.map (subobject t) = o.subs.map some

/-- The row of a sub-compartment, as it is sent. -/
def Subobject.compart (s : Subobject) (parent : Nat) : Subcompart where
  compartId := s.compartId
  compartName := fileName s.name
  startAddr := s.start
  endAddr := s.stop
  isDefault := 0
  parentId := parent

/-- The rows of an object. -/
def CompartObject.rows (o : CompartObject) : List CompInfo :=
  o.object.compart.row ::
    o.subs.map fun s => (s.compart o.object.defaultCompartId).row

/-- The ids of an object. -/
def CompartObject.ids (o : CompartObject) : List Nat :=
  o.object.defaultCompartId :: o.subs.map Subobject.compartId

def CompartObject.inserts (o : CompartObject) : List Statement :=
  .replaceDefault o.object.compart :: o.subs.map fun s =>
    .replaceSubcompart (s.compart o.object.defaultCompartId)

theorem subcompartStep_statements {t : Target} (parent : Nat)
    {sub : Remote CompartEntry} {s : Subobject}
    (hs : subobject t sub = some s) (u : PUnit) :
    (subcompartStep t parent u sub).outcome = .ok ⟨⟩ ∧
      statements (subcompartStep t parent u sub).trace =
        [.replaceSubcompart (s.compart parent)] := by
  rw [subobject] at hs
  split at hs
  · next entry hread =>
      obtain ⟨name, hname, rfl⟩ := Option.map_eq_some_iff.mp hs
      rw [subcompartStep, outcome_piodRead_bind hread,
        statements_piodRead_bind hread, outcome_getString_bind hname,
        statements_getString_bind hname]
      exact ⟨rfl, rfl⟩
  · cases hs

theorem loop_subcompartStep {t : Target} (parent : Nat)
    {subs : List (Remote CompartEntry)} {ss : List Subobject}
    (hsubs : subs.map (subobject t) = ss.map some) (u : PUnit) :
    (Run.loop (subcompartStep t parent) u subs).outcome = .ok ⟨⟩ ∧
      statements (Run.loop (subcompartStep t parent) u subs).trace =
        ss.map fun s => .replaceSubcompart (s.compart parent) := by
  induction subs generalizing ss u with
  | nil =>
      cases List.map_eq_nil_iff.mp hsubs.symm
      exact ⟨rfl, rfl⟩
  | cons sub subs ih =>
      rcases ss with - | ⟨s, ss⟩
      · cases hsubs
      · rw [List.map_cons, List.map_cons, List.cons.injEq] at hsubs
        obtain ⟨hok, hstatements⟩ :=
          subcompartStep_statements parent hsubs.1 u
        obtain ⟨hrest, hothers⟩ := ih hsubs.2 ⟨⟩
        rw [Run.loop_cons, Run.outcome_bind_ok hok, Run.trace_bind_ok hok,
          statements_append, hstatements, hothers]
        exact ⟨hrest, rfl⟩

theorem objectStep_inserts {t : Target} {obj : Remote ObjEntry}
    {o : CompartObject} (ho : ReadsObject t obj o) (head : List CompartData) :
    (objectStep t head obj).outcome = .ok (o.object.data :: head) ∧
      statements (objectStep t head obj).trace = o.inserts := by
  obtain ⟨object, subs⟩ := o
  obtain ⟨hobject, hsubs⟩ := ho
  rw [linkObject] at hobject
  split at hobject
  · next entry hread =>
      obtain ⟨path, hpath, rfl⟩ := Option.map_eq_some_iff.mp hobject
      obtain ⟨hok, hinserts⟩ := loop_subcompartStep
        entry.defaultCompartId (hsubs entry hread) ⟨⟩
      have hpathName : (getFilenameFromPath (some path)).outcome =
          .ok (fileName path) := rfl
      have hsend (st : Statement) :
          (sqlQueryExec st : Scan PUnit).outcome = .ok ⟨⟩ := rfl
      rw [objectStep, outcome_piodRead_bind hread,
        statements_piodRead_bind hread, outcome_getString_bind hpath,
        statements_getString_bind hpath, Run.outcome_bind_ok hpathName,
        Run.trace_bind_ok hpathName]
      dsimp only
      rw [Run.outcome_bind_ok (hsend _), Run.trace_bind_ok (hsend _),
        Run.outcome_bind_ok hok, Run.trace_bind_ok hok]
      refine ⟨rfl, ?_⟩
      rw [statements_append, statements_append, statements_append, hinserts]
      exact congrArg (List.cons _) (List.append_nil _)
  · cases hobject

theorem loop_objectStep_inserts {t : Target} {rMap : List (Remote ObjEntry)}
    {objs : List CompartObject} (h : List.Forall₂ (ReadsObject t) rMap objs)
    (head : List CompartData) :
    ∃ head', (Run.loop (objectStep t) head rMap).outcome = .ok head' ∧
      statements (Run.loop (objectStep t) head rMap).trace =
        objs.flatMap CompartObject.inserts := by
  induction h generalizing head with
  | nil => exact ⟨head, rfl, rfl⟩
  | cons hobj _ ih =>
      obtain ⟨hok, hinserts⟩ := objectStep_inserts hobj head
      obtain ⟨head', hrest, hothers⟩ := ih _
      refine ⟨head', ?_, ?_⟩
      · rw [Run.loop_cons, Run.outcome_bind_ok hok, hrest]
      · rw [Run.loop_cons, Run.trace_bind_ok hok, statements_append, hinserts,
          hothers, List.flatMap_cons]

theorem scanRtldLinkmap_inserts {t : Target} {debug : RDebug}
    {objs : List CompartObject}
    (h : List.Forall₂ (ReadsObject t) debug.rMap objs) :
    (scanRtldLinkmap t debug).Succeeds ∧
      statements (scanRtldLinkmap t debug).trace =
        objs.flatMap CompartObject.inserts := by
  obtain ⟨head, hok, hinserts⟩ := loop_objectStep_inserts h []
  have hattach : (ptraceAttach : Scan PUnit).outcome = .ok ⟨⟩ := rfl
  rw [scanRtldLinkmap]
  constructor
  · exact ⟨head, by
      rw [Run.outcome_bind_ok hattach, Run.outcome_bind_ok hok]
      rfl⟩
  · rw [Run.trace_bind_ok hattach, Run.trace_bind_ok hok, statements_append,
      statements_append, hinserts]
    exact List.append_nil _

/-- The object has no sub-compartments. -/
def NoSubcomparts (obj : Remote ObjEntry) : Prop :=
  ∀ entry, obj.read = .ok entry → entry.comparts = []

theorem readsObjects_alone {t : Target} {objs : List LinkObject}
    {rMap : List (Remote ObjEntry)}
    (hobjs : rMap.map (linkObject t) = objs.map some)
    (hsubs : ∀ obj ∈ rMap, NoSubcomparts obj) :
    List.Forall₂ (ReadsObject t) rMap (objs.map fun o => ⟨o, []⟩) := by
  induction rMap generalizing objs with
  | nil =>
      cases List.map_eq_nil_iff.mp hobjs.symm
      exact .nil
  | cons obj rMap ih =>
      rcases objs with - | ⟨o, objs⟩
      · cases hobjs
      · rw [List.map_cons, List.map_cons, List.cons.injEq] at hobjs
        have hobj : ReadsObject t obj ⟨o, []⟩ := by
          refine ⟨hobjs.1, fun entry hread => ?_⟩
          rw [hsubs obj List.mem_cons_self entry hread]
          rfl
        exact .cons hobj (ih hobjs.2 fun obj hobj =>
          hsubs obj (List.mem_cons_of_mem _ hobj))

/-- Without sub-compartments, one row is sent for each object. -/
theorem scanRtldLinkmap_alone {t : Target} {debug : RDebug}
    {objs : List LinkObject}
    (hobjs : debug.rMap.map (linkObject t) = objs.map some)
    (hsubs : ∀ obj ∈ debug.rMap, NoSubcomparts obj) :
    statements (scanRtldLinkmap t debug).trace =
      objs.map fun o => .replaceDefault o.compart := by
  rw [(scanRtldLinkmap_inserts (readsObjects_alone hobjs hsubs)).2,
    List.flatMap_map, List.map_eq_flatMap]
  rfl

/-- An action that writes no row, or only the name of one. -/
def Event.Names : Event → Prop
  | .exec s => ∃ name id, s = .updateCompartName name id
  | _ => True

theorem names_compartStep (t : Target) (names : List (Option Text))
    (entry : Remote ULong × Nat) :
    Run.Emits Event.Names (compartStep t names entry) := by
  refine Run.Emits.bind ?_ fun _ => Run.Emits.bind ?_ fun fullName => ?_
  · exact emits_piodRead trivial
  · exact emits_getString fun _ => trivial
  · rcases fullName with - | n
    · exact Run.emits_pure _
    · exact (Run.emits_emit ⟨_, _, rfl⟩).bind fun _ => Run.emits_pure _

theorem onlyNames_scanRComparts (t : Target) (debug : RDebug) :
    OnlyNames (statements (scanRComparts t debug).trace) := by
  have hemits : Run.Emits Event.Names (scanRComparts t debug) :=
    (Run.emits_emit trivial).bind fun _ =>
      (Run.Emits.loop (names_compartStep t) _ _).bind fun _ =>
        (Run.emits_emit trivial).bind fun _ => Run.emits_pure _
  exact fun s hs => hemits (.exec s) (mem_statements.mp hs)

/-! ### The table after a scan -/

/-- The row records the file name and the address range of the object. -/
structure CompInfo.Records (r : CompInfo) (o : LinkObject) : Prop where
  libraryPath : r.libraryPath = some (fileName o.path)
  startAddr : r.startAddr = some (hexText o.mapbase.toNat)
  endAddr : r.endAddr = some (hexText (o.mapbase + o.mapsize).toNat)

theorem LinkObject.records_row (o : LinkObject) : o.compart.row.Records o :=
  ⟨rfl, rfl, rfl⟩

theorem CompInfo.Records.rename {r : CompInfo} {o : LinkObject}
    (h : r.Records o) (name : Option Text) : (r.rename name).Records o :=
  ⟨h.libraryPath, h.startAddr, h.endAddr⟩

/-- For each id there is the row of the last object with it. -/
structure KeepsLast (objs : List LinkObject) (cs : Comparts) : Prop where
  some : ∀ id o, lastObject objs id = some o →
    ∃ r, cs.lookup id = some r ∧ r.Records o
  none : ∀ id, lastObject objs id = none → cs.lookup id = none

theorem CompletedScan.keepsLast {t : Target} {map : List KinfoVmentry}
    (c : CompletedScan t map) {objs : List LinkObject}
    (hobjs : c.debug.rMap.map (linkObject t) = objs.map some)
    (hsubs : ∀ obj ∈ c.debug.rMap, NoSubcomparts obj) :
    KeepsLast objs (c.before.foldl Statement.runComparts Comparts.empty) := by
  have hlinkmap := scanRtldLinkmap_alone hobjs hsubs
  have hsearch : Spare .comparts (statements (getRDebug t).trace) :=
    spare_statements (spares_of_writes (@writes_getRDebug .vm t) (by decide))
  have hrow (id : Int) : (c.before.foldl Statement.runComparts
      Comparts.empty).lookup id =
        (statements (scanRComparts t c.debug).trace).foldl
          (Statement.onRow id)
          ((lastObject objs id).map fun o => o.compart.row) := by
    have hcreate : (statements createTables.trace).foldl (Statement.onRow id)
        (Comparts.empty.lookup id) = none := rfl
    rw [lookup_foldl_runComparts, before, hlinkmap, List.foldl_append,
      List.foldl_append, List.foldl_append, hcreate, hsearch.onRow,
      onRow_objects, Option.or_none]
  have hnames (id : Int) := (onlyNames_scanRComparts t c.debug).onRow id
  constructor
  · intro id o hlast
    rw [hrow, hlast]
    rcases hnames id (some o.compart.row) with hkeep | ⟨name, hname⟩
    · exact ⟨_, hkeep, o.records_row⟩
    · exact ⟨_, hname, o.records_row.rename name⟩
  · intro id hlast
    rw [hrow, hlast]
    rcases hnames id none with hkeep | ⟨name, hname⟩
    · exact hkeep
    · exact hname

/-- `comparts` against the link map and the blocks. -/
structure CompartsRecord (objs : List LinkObject) (db : Db) : Prop where
  attributed : ∀ v ∈ db.vm, 0 ≤ v.compartId →
    ∃ o ∈ objs, o.path <+: v.mmapPath ∧ v.compartId = o.defaultCompartId ∧
      ∃ r, db.comparts.lookup v.compartId = some r
  last : ∀ id o, lastObject objs id = some o →
    ∃ r, db.comparts.lookup id = some r ∧ r.Records o
  only : ∀ id r, db.comparts.lookup id = some r →
    ∃ o, lastObject objs id = some o
  unshared : ∀ o ∈ objs,
    (∀ o' ∈ objs, o'.defaultCompartId = o.defaultCompartId → o' = o) →
      ∃ r, db.comparts.lookup o.defaultCompartId = some r ∧ r.Records o

theorem dbAfter_comparts_record {t : Target} {map : List KinfoVmentry}
    (hmap : t.vmmap = some map) (hscan : (scanMem t).outcome = .ok ⟨⟩)
    {debug : RDebug} (hdebug : (getRDebug t).outcome = .ok debug)
    {objs : List LinkObject}
    (hobjs : debug.rMap.map (linkObject t) = objs.map some)
    (hsubs : ∀ obj ∈ debug.rMap, NoSubcomparts obj) :
    CompartsRecord objs (dbAfter t Db.empty) := by
  obtain ⟨c⟩ := exists_completedScan hmap hscan
  cases hdebug.symm.trans c.debug_eq
  have hlast := c.keepsLast hobjs hsubs
  have hcomparts : (dbAfter t Db.empty).comparts =
      c.before.foldl Statement.runComparts Comparts.empty := by
    rw [c.dbAfter_eq hmap hscan, Db.empty]
  rw [← hcomparts] at hlast
  constructor
  · intro v hv hid
    obtain ⟨debug', objs', hdebug', hobjs', hstored⟩ :=
      stored_compartId hmap hscan
    cases hdebug.symm.trans hdebug'
    have hsame : objs' = objs :=
      (List.map_injective_iff.mpr (Option.some_injective _))
        (hobjs'.symm.trans hobjs)
    subst hsame
    obtain ⟨i, hi⟩ := List.mem_iff_getElem?.mp hv
    obtain ⟨kivp, st, _, hentry⟩ := hstored i v hi
    have hcompart : v.compartId = storedId t st kivp objs' :=
      congrArg VmEntry.compartId hentry
    have hpath : v.mmapPath = mmapPath t st kivp :=
      congrArg VmEntry.mmapPath hentry
    rcases storedId_spec t st kivp objs' with ⟨o, ho, hprefix, hstored⟩ | ⟨_, hnone⟩
    · obtain ⟨o', ho'⟩ := exists_lastObject ho
      obtain ⟨r, hr, _⟩ := hlast.some _ _ ho'
      rw [← hcompart] at hstored
      rw [← hpath] at hprefix
      exact ⟨o, ho, hprefix, hstored, r, by rwa [hstored]⟩
    · omega
  · exact hlast.some
  · intro id r hr
    rcases hobject : lastObject objs id with - | o
    · rw [hlast.none id hobject] at hr
      cases hr
    · exact ⟨o, rfl⟩
  · intro o ho hunshared
    obtain ⟨o', ho'⟩ := exists_lastObject ho
    obtain ⟨hmem, hid⟩ := lastObject_mem ho'
    cases hunshared o' hmem (by omega)
    exact hlast.some _ _ ho'

/-- What is recorded does not depend on the names of the compartments. -/
theorem CompartsRecord.of_sameRows {objs : List LinkObject} {db db' : Db}
    (h : CompartsRecord objs db') (hsame : SameRows db db') :
    CompartsRecord objs db := by
  have hrow {id : Int} {r : CompInfo} (hr : db'.comparts.lookup id = some r) :
      ∃ r', db.comparts.lookup id = some r' ∧
        ∀ o, r.Records o → r'.Records o := by
    have hid := hsame.comparts id
    rw [hr, Option.map_some, Option.map_eq_some_iff] at hid
    obtain ⟨r', hr', hrename⟩ := hid
    refine ⟨r', hr', fun o ho => ?_⟩
    have hnone : (r'.rename none).Records o := by
      rw [hrename]
      exact ho.rename none
    exact ⟨hnone.libraryPath, hnone.startAddr, hnone.endAddr⟩
  constructor
  · intro v hv hid
    rw [hsame.vm] at hv
    obtain ⟨o, ho, hprefix, hstored, r, hr⟩ := h.attributed v hv hid
    obtain ⟨r', hr', _⟩ := hrow hr
    exact ⟨o, ho, hprefix, hstored, r', hr'⟩
  · intro id o ho
    obtain ⟨r, hr, hrecords⟩ := h.last id o ho
    obtain ⟨r', hr', hkept⟩ := hrow hr
    exact ⟨r', hr', hkept o hrecords⟩
  · intro id r hr
    have hid := hsame.comparts id
    rw [hr, Option.map_some, eq_comm, Option.map_eq_some_iff] at hid
    obtain ⟨r', hr', _⟩ := hid
    exact h.only id r' hr'
  · intro o ho hunshared
    obtain ⟨r, hr, hrecords⟩ := h.unshared o ho hunshared
    obtain ⟨r', hr', hkept⟩ := hrow hr
    exact ⟨r', hr', hkept o hrecords⟩

/-- After a scan of a link map without sub-compartments, there is a row for
every id a block is attributed to, and the row of an id is that of the last
object with it; an object that shares its id with no other one is recorded. -/
theorem scan_comparts_record {t : Target} {map : List KinfoVmentry}
    (hclean : t.Clean) (hmap : t.vmmap = some map)
    (hscan : (scanMem t).outcome = .ok ⟨⟩)
    {debug : RDebug} (hdebug : (getRDebug t).outcome = .ok debug)
    {objs : List LinkObject}
    (hobjs : debug.rMap.map (linkObject t) = objs.map some)
    (hsubs : ∀ obj ∈ debug.rMap, NoSubcomparts obj) :
    CompartsRecord objs (dbScanned t Db.empty) :=
  (dbAfter_comparts_record hmap hscan hdebug hobjs hsubs).of_sameRows
    (sameRows_dbScanned hclean Db.empty)

/-! ### Two libraries in one compartment -/

/-- The two libraries as the link map has them, with the given ids. -/
def twoObjects (idA idB : Nat) : RDebug where
  rMap :=
    [⟨0x8000, .ok ⟨0x9000, 0x40000, 0x2000, idA, []⟩⟩,
      ⟨0x8100, .ok ⟨0x9100, 0x50000, 0x2000, idB, []⟩⟩]
  rComparts := []

/-- A process with these two libraries and a block of each. -/
def sharesIds (idA idB : Nat) : Target :=
  { twoLibraries with
    vmmap := some [headA, blockOf libB 0x50000 0x52000]
    readRDebug := fun _ => .ok (twoObjects idA idB)
    getString := fun addr =>
      ⟨[addr], some (if addr = 0x9000 then libA else libB)⟩ }

theorem sharesIds_clean (idA idB : Nat) : (sharesIds idA idB).Clean := by
  refine clean_of_unnamed rfl (by decide +kernel) ?_ twoLibraries_unnamed
    (fun _ _ => List.not_mem_nil) rfl
  intro a s hs
  change some (if a = 0x9000 then libA else libB) = some s at hs
  rw [Option.some.injEq] at hs
  subst hs
  exact quoteFree_ite (by decide) (by decide)

theorem sharesIds_cleanArray (idA idB : Nat) :
    (sharesIds idA idB).CleanArray := by
  intro debug hdebug
  cases hdebug
  exact List.forall_mem_nil _

def objectA (id : Nat) : LinkObject := ⟨libA, id, 0x40000, 0x2000⟩

def objectB (id : Nat) : LinkObject := ⟨libB, id, 0x50000, 0x2000⟩

theorem twoObjects_noSubcomparts (idA idB : Nat) :
    ∀ obj ∈ (twoObjects idA idB).rMap, NoSubcomparts obj := by
  simp only [twoObjects, List.forall_mem_cons, List.not_mem_nil,
    IsEmpty.forall_iff, implies_true, and_true, NoSubcomparts,
    ReadResult.ok.injEq, forall_eq']

/-- The row of the first library is replaced by that of the second: no row
records it, and the one of the id its block is attributed to has another
name. -/
theorem shared_id_replaced :
    (getRDebug (sharesIds 1 1)).outcome = .ok (twoObjects 1 1) ∧
      (twoObjects 1 1).rMap.map (linkObject (sharesIds 1 1)) =
        [objectA 1, objectB 1].map some ∧
      ¬ libA <+: libB ∧ ¬ libB <+: libA ∧
      (scanMem (sharesIds 1 1)).outcome = .ok ⟨⟩ ∧
      (∀ id r, (dbScanned (sharesIds 1 1) Db.empty).comparts.lookup id = some r →
        ¬ r.Records (objectA 1)) ∧
      ∃ v ∈ (dbScanned (sharesIds 1 1) Db.empty).vm, v.compartId = 1 ∧
        v.mmapPath = libA ∧
        ∀ r, (dbScanned (sharesIds 1 1) Db.empty).comparts.lookup 1 = some r →
          r.libraryPath ≠ some (fileName libA) := by
  have hscanned := dbScanned_eq (sharesIds_clean 1 1)
    (sharesIds_cleanArray 1 1) Db.empty
  have hrows : (dbAfter (sharesIds 1 1) Db.empty).comparts.rows =
      [(objectB 1).compart.row] := rfl
  have hname : (objectB 1).compart.row.libraryPath ≠ some (fileName libA) := by
    decide
  have hrow {id : Int} {r : CompInfo}
      (h : (dbAfter (sharesIds 1 1) Db.empty).comparts.lookup id = some r) :
      r.libraryPath ≠ some (fileName libA) := by
    have hr := List.mem_of_find?_eq_some h
    rw [hrows, List.mem_singleton] at hr
    rw [hr]
    exact hname
  rw [hscanned]
  refine ⟨rfl, rfl, by decide, by decide, rfl,
    fun id r h hrecords => hrow h hrecords.libraryPath, ?_⟩
  exact ⟨_, List.mem_cons_self, rfl, rfl, fun r h => hrow h⟩

/-- With an id of its own each library is recorded. -/
theorem own_ids_recorded :
    CompartsRecord [objectA 1, objectB 2]
      (dbScanned (sharesIds 1 2) Db.empty) :=
  @scan_comparts_record (sharesIds 1 2) _ (sharesIds_clean 1 2) rfl rfl _ rfl _
    rfl (twoObjects_noSubcomparts 1 2)

end Chericat
