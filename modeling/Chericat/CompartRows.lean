import Chericat.CompartTable
import Chericat.PlainStatements

/-!
The rows of `comparts` after both of its scans: one for each object and each
sub-compartment of the link map, with the names of the compartment array.
-/

namespace Chericat

open Numeral SqlText

/-! ### The table, row by row -/

theorem insertRow_perm {row : CompInfo} {rows : List CompInfo}
    (h : row.compartId ∉ rows.map CompInfo.compartId) :
    (insertRow row rows).Perm (row :: rows) := by
  induction rows with
  | nil => exact .refl _
  | cons r rs ih =>
      rw [List.map_cons, List.mem_cons, not_or] at h
      rw [insertRow]
      split
      · exact ((ih h.2).cons r).trans (.swap row r rs)
      · rw [if_neg (Ne.symm h.1)]

/-- Rows with keys of their own are all kept. -/
theorem rows_foldl_replace {rows : List CompInfo} {t : Comparts}
    (h : ((t.rows ++ rows).map CompInfo.compartId).Nodup) :
    (rows.foldl (fun t r => t.replace r) t).rows.Perm (t.rows ++ rows) := by
  induction rows using List.reverseRecOn with
  | nil => simp
  | append_singleton rows r ih =>
      rw [← List.append_assoc, List.map_append, List.nodup_append] at h
      obtain ⟨hrows, -, hfresh⟩ := h
      have hperm := ih hrows
      have hr : r.compartId ∉ (rows.foldl (fun t r => t.replace r)
          t).rows.map CompInfo.compartId := by
        intro hmem
        exact hfresh _ ((hperm.map _).subset hmem) _ (by simp) rfl
      rw [List.foldl_append, ← List.append_assoc]
      exact (insertRow_perm hr).trans
        ((hperm.cons r).trans (List.perm_append_singleton r _).symm)

/-- The name at index `i` of the array, when there is one that can be read. -/
def nameOf (names : List (Option Text)) (i : Int) : Option Text :=
  if i < 0 then none else (names[i.toNat]?).join

/-- The row after the second scan. -/
def givenName (names : List (Option Text)) (r : CompInfo) : CompInfo :=
  match nameOf names r.compartId with
  | some n => { r with compartName := some (fileName n) }
  | none => r

/-- The `UPDATE` of every name that can be read. -/
def nameStatements (names : List (Option Text)) : List Statement :=
  names.zipIdx.flatMap fun entry =>
    (entry.1.map fun n =>
      Statement.updateCompartName (fileName n) entry.2).toList

theorem nameStatements_concat (names : List (Option Text))
    (name : Option Text) :
    nameStatements (names ++ [name]) = nameStatements names ++
      (name.map fun n =>
        Statement.updateCompartName (fileName n) names.length).toList := by
  simp [nameStatements, List.zipIdx_append]

theorem nameOf_concat (names : List (Option Text)) (name : Option Text)
    (i : Int) :
    nameOf (names ++ [name]) i =
      if i = names.length then name else nameOf names i := by
  rw [nameOf, nameOf]
  split
  · rw [if_neg (by omega)]
  · split
    · next hi => simp [hi]
    · next hneg hi =>
        rcases Nat.lt_or_ge i.toNat names.length with hlt | hge
        · rw [List.getElem?_append_left hlt]
        · rw [List.getElem?_eq_none (by simp; omega),
            List.getElem?_eq_none (by omega)]

theorem givenName_compartId (names : List (Option Text)) (r : CompInfo) :
    (givenName names r).compartId = r.compartId := by
  rw [givenName]
  split <;> rfl

/-- The last name of the array, after the others. -/
theorem givenName_concat (names : List (Option Text)) (name : Option Text)
    (r : CompInfo) :
    givenName (names ++ [name]) r =
      name.elim (givenName names r) fun n => Comparts.setName
        (fun _ => some (fileName n)) names.length (givenName names r) := by
  by_cases hlast : r.compartId = names.length
  · have hbefore : givenName names r = r := by
      rw [givenName, nameOf, hlast]
      simp
    rw [hbefore, givenName, nameOf_concat, if_pos hlast]
    rcases name with - | n
    · rfl
    · exact (if_pos hlast).symm
  · have hsame : givenName (names ++ [name]) r = givenName names r := by
      rw [givenName, givenName, nameOf_concat, if_neg hlast]
    rw [hsame]
    rcases name with - | n
    · rfl
    · rw [Option.elim_some, Comparts.setName, givenName_compartId,
        if_neg hlast]

/-- All the names are given. -/
theorem rows_nameStatements (names : List (Option Text)) (cs : Comparts) :
    ((nameStatements names).foldl Statement.runComparts cs).rows =
      cs.rows.map (givenName names) := by
  induction names using List.reverseRecOn with
  | nil =>
      have hid : givenName [] = id := by
        funext r
        simp [givenName, nameOf]
      rw [hid, List.map_id]
      rfl
  | append_singleton names name ih =>
      rw [nameStatements_concat, List.foldl_append]
      rcases name with - | n
      · simp [ih, funext (givenName_concat names none)]
      · simp only [Option.map_some, Option.toList_some, List.foldl_cons,
          List.foldl_nil, Statement.runComparts, Comparts.updateName,
          Comparts.updateNameBy, ih, List.map_map]
        apply List.map_congr_left
        intro r _
        rw [givenName_concat]
        rfl

/-! ### The compartment array -/

/-- What the scan reads of an element of the array is its name, or nothing. -/
def ReadsName (t : Target) (entry : Remote ULong) (name : Option Text) :
    Prop :=
  ∃ addr, entry.read = .ok addr ∧ (t.getString addr).result = name

theorem compartStep_names {t : Target} {entry : Remote ULong}
    {name : Option Text} (h : ReadsName t entry name) (i : Nat)
    (names : List (Option Text)) :
    (compartStep t names (entry, i)).outcome = .ok (names ++ [name]) ∧
      statements (compartStep t names (entry, i)).trace =
        (name.map fun n =>
          Statement.updateCompartName (fileName n) i).toList := by
  obtain ⟨addr, hread, hname⟩ := h
  rw [compartStep, outcome_piodRead_bind hread, statements_piodRead_bind hread,
    outcome_getString_bind hname, statements_getString_bind hname]
  rcases name with - | n
  · exact ⟨rfl, rfl⟩
  · exact ⟨rfl, rfl⟩

/-- The array from some element on, behind the names so far. -/
theorem loop_compartStep_names {t : Target} {entries : List (Remote ULong)}
    {names : List (Option Text)}
    (h : List.Forall₂ (ReadsName t) entries names)
    (done : List (Option Text)) :
    (Run.loop (compartStep t) done (entries.zipIdx done.length)).outcome =
        .ok (done ++ names) ∧
      nameStatements done ++ statements (Run.loop (compartStep t) done
        (entries.zipIdx done.length)).trace =
          nameStatements (done ++ names) := by
  induction h generalizing done with
  | nil => simp
  | @cons entry name entries names hname _ ih =>
      obtain ⟨hok, hstatements⟩ := compartStep_names hname done.length done
      obtain ⟨hrest, hothers⟩ := ih (done ++ [name])
      rw [List.length_append, List.length_singleton, List.append_assoc,
        List.singleton_append] at hrest hothers
      rw [List.zipIdx_cons, Run.loop_cons, Run.outcome_bind_ok hok,
        Run.trace_bind_ok hok, statements_append, hstatements,
        ← List.append_assoc, ← nameStatements_concat]
      exact ⟨hrest, hothers⟩

theorem scanRComparts_names {t : Target} {debug : RDebug}
    {names : List (Option Text)}
    (h : List.Forall₂ (ReadsName t) debug.rComparts names) :
    (scanRComparts t debug).outcome = .ok names ∧
      statements (scanRComparts t debug).trace = nameStatements names := by
  obtain ⟨hok, hnames⟩ := loop_compartStep_names h []
  rw [List.length_nil, List.nil_append] at hok hnames
  have hattach : (ptraceAttach : Scan PUnit).outcome = .ok ⟨⟩ := rfl
  rw [scanRComparts]
  constructor
  · rw [Run.outcome_bind_ok hattach, Run.outcome_bind_ok hok]
    rfl
  · rw [Run.trace_bind_ok hattach, Run.trace_bind_ok hok, statements_append,
      statements_append]
    exact (List.append_nil _).trans hnames

/-! ### Both scans -/

/-- The file names that are put into the statements: no quotes in any of them,
and none of the array is the name of a column. -/
structure PlainNames (objs : List CompartObject)
    (names : List (Option Text)) : Prop where
  objects : ∀ o ∈ objs, QuoteFree (fileName o.object.path) ∧
    ∀ s ∈ o.subs, QuoteFree (fileName s.name)
  given : ∀ n, some n ∈ names →
    QuoteFree (fileName n) ∧ lower (fileName n) ∉ compartsNames

theorem PlainNames.faithful_inserts {objs : List CompartObject}
    {names : List (Option Text)} (h : PlainNames objs names) :
    ∀ st ∈ objs.flatMap CompartObject.inserts, st.Faithful := by
  intro st hst
  obtain ⟨o, ho, hst⟩ := List.mem_flatMap.1 hst
  obtain ⟨hpath, hsubs⟩ := h.objects o ho
  rcases List.mem_cons.1 hst with rfl | hst
  · refine Statement.Clean.faithful ?_ rfl
    simp only [Statement.Clean, RowClean, DefaultCompart.fields,
      List.forall_mem_cons]
    exact ⟨trivial, hpath, quoteFree_hexText _, quoteFree_hexText _, trivial,
      List.forall_mem_nil _⟩
  · obtain ⟨s, hs, rfl⟩ := List.mem_map.1 hst
    refine Statement.Clean.faithful ?_ rfl
    simp only [Statement.Clean, RowClean, Subcompart.fields,
      List.forall_mem_cons]
    exact ⟨trivial, hsubs s hs, quoteFree_hexText _, quoteFree_hexText _,
      trivial, trivial, List.forall_mem_nil _⟩

theorem PlainNames.faithful_names {objs : List CompartObject}
    {names : List (Option Text)} (h : PlainNames objs names) :
    ∀ st ∈ nameStatements names, st.Faithful := by
  intro st hst
  obtain ⟨⟨name, i⟩, hentry, hst⟩ := List.mem_flatMap.1 hst
  rcases name with - | n
  · cases hst
  · obtain rfl := List.mem_singleton.1 hst
    have hmem : some n ∈ names := (List.mem_zipIdx' hentry).2 ▸ List.getElem_mem _
    exact Statement.Clean.faithful (h.given n hmem) rfl

/-- The inserted rows, one after the other. -/
theorem foldl_inserts (objs : List CompartObject) (cs : Comparts) :
    (objs.flatMap CompartObject.inserts).foldl Statement.runComparts cs =
      (objs.flatMap CompartObject.rows).foldl (fun t r => t.replace r) cs := by
  rw [List.foldl_flatMap, List.foldl_flatMap]
  congr 1
  funext cs o
  rw [CompartObject.inserts, CompartObject.rows, List.foldl_cons,
    List.foldl_cons, List.foldl_map, List.foldl_map]
  rfl

/-- Statements on `comparts` leave the other tables as they are. -/
theorem runAll_comparts {ss : List Statement}
    (h : ∀ st ∈ ss, st.writes = some .comparts) (db : Db) :
    runAll ss db =
      { db with comparts := ss.foldl Statement.runComparts db.comparts } := by
  have hspare (tb : Table) (hne : tb ≠ .comparts) : Spare tb ss := by
    intro st hst hwrites
    rw [h st hst, Option.some.injEq] at hwrites
    exact hne hwrites.symm
  rw [runAll_eq, (hspare .vm nofun).runVm,
    (hspare .capInfo nofun).capRows,
    (hspare .elfSym nofun).symRows, List.append_nil, List.append_nil]

theorem inserts_writes (objs : List CompartObject) :
    ∀ st ∈ objs.flatMap CompartObject.inserts, st.writes = some .comparts := by
  intro st hst
  obtain ⟨o, -, hst⟩ := List.mem_flatMap.1 hst
  rcases List.mem_cons.1 hst with rfl | hst
  · rfl
  · obtain ⟨s, -, rfl⟩ := List.mem_map.1 hst
    rfl

theorem nameStatements_writes (names : List (Option Text)) :
    ∀ st ∈ nameStatements names, st.writes = some .comparts := by
  intro st hst
  obtain ⟨⟨name, i⟩, -, hst⟩ := List.mem_flatMap.1 hst
  rcases name with - | n
  · cases hst
  · obtain rfl := List.mem_singleton.1 hst
    rfl

/-- The object and its sub-compartments have their rows; those of the
sub-compartments have the id of the other one as their parent. -/
structure ObjectStored (cs : Comparts) (o : CompartObject) : Prop where
  default : ∃ r, cs.lookup o.object.defaultCompartId = some r ∧
    r.isDefault = some 1 ∧ r.Records o.object
  subs : ∀ s ∈ o.subs, ∃ r, cs.lookup s.compartId = some r ∧
    r.isDefault = some 0 ∧ r.startAddr = some (hexText s.start.toNat) ∧
    r.endAddr = some (hexText s.stop.toNat) ∧
    r.parentId = some (o.object.defaultCompartId : Int)

/-- The database after the first and after the second scan. -/
structure CompartsBuilt (objs : List CompartObject)
    (names : List (Option Text)) (db first second : Db) : Prop where
  rows : first.comparts.rows.Perm (objs.flatMap CompartObject.rows)
  frame : first = { db with comparts := first.comparts }
  renamed : second.comparts.rows = first.comparts.rows.map (givenName names)
  renamedFrame : second = { first with comparts := second.comparts }
  objects : ∀ o ∈ objs, ObjectStored second.comparts o

theorem givenName_eq_rename (names : List (Option Text)) (r : CompInfo) :
    ∃ name, givenName names r = r.rename name := by
  rw [givenName]
  split
  · exact ⟨_, rfl⟩
  · exact ⟨r.compartName, rfl⟩

/-- A row of the first scan, after the second one. -/
theorem lookup_renamed {names : List (Option Text)} {cs cs' : Comparts}
    (hrows : cs'.rows = cs.rows.map (givenName names)) {r : CompInfo}
    (hr : r ∈ cs.rows) :
    ∃ name, cs'.lookup r.compartId = some (r.rename name) := by
  obtain ⟨name, hname⟩ := givenName_eq_rename names r
  have hmem : r.rename name ∈ cs'.rows := by
    rw [hrows, ← hname]
    exact List.mem_map_of_mem hr
  exact ⟨name, (cs'.mem_rows_iff _).1 hmem⟩

theorem objectStored_of_renamed {objs : List CompartObject}
    {names : List (Option Text)} {cs cs' : Comparts}
    (hall : cs.rows.Perm (objs.flatMap CompartObject.rows))
    (hrows : cs'.rows = cs.rows.map (givenName names)) :
    ∀ o ∈ objs, ObjectStored cs' o := by
  intro o ho
  have hmem : ∀ r ∈ o.rows, r ∈ cs.rows := fun r hr =>
    hall.symm.subset (List.mem_flatMap.2 ⟨o, ho, hr⟩)
  constructor
  · obtain ⟨name, hname⟩ := lookup_renamed hrows (hmem o.object.compart.row
      List.mem_cons_self)
    exact ⟨_, hname, rfl, o.object.records_row.rename name⟩
  · intro s hs
    obtain ⟨name, hname⟩ := lookup_renamed hrows
      (hmem (s.compart o.object.defaultCompartId).row
        (List.mem_cons_of_mem _ (List.mem_map_of_mem hs)))
    exact ⟨_, hname, rfl, rfl, rfl, rfl⟩

/-- The ids of the rows are those of the link map. -/
theorem ids_rows (objs : List CompartObject) :
    (objs.flatMap CompartObject.rows).map CompInfo.compartId =
      (objs.flatMap CompartObject.ids).map Int.ofNat := by
  rw [List.map_flatMap, List.map_flatMap]
  apply List.flatMap_congr
  intro o _
  rw [CompartObject.rows, CompartObject.ids, List.map_cons, List.map_cons,
    List.map_map, List.map_map]
  rfl

/-- With distinct ids and plain names, the two scans build the table of the
link map: a row for each object and each sub-compartment, with its parent among
the rows, and the names of the array. -/
theorem comparts_built {t : Target} {debug : RDebug}
    {objs : List CompartObject} {names : List (Option Text)}
    (hobjs : List.Forall₂ (ReadsObject t) debug.rMap objs)
    (hnames : List.Forall₂ (ReadsName t) debug.rComparts names)
    (hids : (objs.flatMap CompartObject.ids).Nodup)
    (hplain : PlainNames objs names) {db : Db}
    (hempty : db.comparts = Comparts.empty) :
    (scanRtldLinkmap t debug).Succeeds ∧ (scanRComparts t debug).Succeeds ∧
      CompartsBuilt objs names db
        (execTexts (statements (scanRtldLinkmap t debug).trace) db)
        (execTexts (statements (scanRComparts t debug).trace)
          (execTexts (statements (scanRtldLinkmap t debug).trace) db)) := by
  obtain ⟨hlinkmap, hinserts⟩ := scanRtldLinkmap_inserts hobjs
  obtain ⟨hcomparts, hupdates⟩ := scanRComparts_names hnames
  refine ⟨hlinkmap, ⟨names, hcomparts⟩, ?_⟩
  rw [hinserts, hupdates, execTexts_eq_runAll hplain.faithful_inserts,
    execTexts_eq_runAll hplain.faithful_names,
    runAll_comparts (nameStatements_writes names),
    runAll_comparts (inserts_writes objs), foldl_inserts, hempty]
  have hnodup : ((Comparts.empty.rows ++
      objs.flatMap CompartObject.rows).map CompInfo.compartId).Nodup := by
    have hcast : Function.Injective Int.ofNat := fun _ _ => Int.ofNat.inj
    have hrows := (List.nodup_map_iff hcast).2 hids
    rw [← ids_rows] at hrows
    exact hrows
  have hall := rows_foldl_replace hnodup
  exact
    { rows := hall
      frame := rfl
      renamed := rows_nameStatements names _
      renamedFrame := rfl
      objects := objectStored_of_renamed hall (rows_nameStatements names _) }

/-- One library with one sub-compartment, and a compartment array whose first
name cannot be read. -/
def oneSubcompartment : RDebug where
  rMap :=
    [⟨0x8000, .ok ⟨0x9000, 0x40000, 0x2000, 1,
      [⟨0x8200, .ok ⟨0x9100, 2, 0x40100, 0x40200⟩⟩]⟩⟩]
  rComparts := [⟨0x8300, .ok 0⟩, ⟨0x8308, .ok 0x9000⟩]

def initName : Text := "/lib/libA.so/init".toList

def namedProcess : Target :=
  { twoLibraries with
    getString := fun addr =>
      ⟨[addr], if addr = 0x9000 then some libA
        else if addr = 0x9100 then some initName else none⟩ }

/-- The two rows of that library. -/
theorem subcompartment_built :
    (scanRtldLinkmap namedProcess oneSubcompartment).Succeeds ∧
      (scanRComparts namedProcess oneSubcompartment).Succeeds ∧
      CompartsBuilt [⟨objectA 1, [⟨initName, 2, 0x40100, 0x40200⟩]⟩]
        [none, some libA] Db.empty
        (execTexts (statements
          (scanRtldLinkmap namedProcess oneSubcompartment).trace) Db.empty)
        (execTexts (statements
          (scanRComparts namedProcess oneSubcompartment).trace)
          (execTexts (statements
            (scanRtldLinkmap namedProcess oneSubcompartment).trace)
            Db.empty)) := by
  refine comparts_built ?_ ?_ (by decide) ?_ rfl
  · refine .cons ⟨rfl, ?_⟩ .nil
    intro entry hread
    cases hread
    rfl
  · exact .cons ⟨0, rfl, rfl⟩ (.cons ⟨0x9000, rfl, rfl⟩ .nil)
  · constructor
    · decide
    · intro n hn
      obtain rfl : n = libA := by simpa using hn
      decide

end Chericat
