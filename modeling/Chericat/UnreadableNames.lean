import Chericat.AttachWindows
import Chericat.CompartRows

/-!
Names that cannot be read, for which `get_string` returns `NULL`.  The scan of
the compartment array skips them; that of the link map hands them on.
-/

namespace Chericat

open SqlText

/-! ### What can be read -/

/-- The requests for the objects, the sub-compartments and the elements of the
array all succeed; the names are another matter. -/
structure ObjectsRead (debug : RDebug) : Prop where
  objects : ∀ obj ∈ debug.rMap, ∃ entry, obj.read = .ok entry ∧
    ∀ sub ∈ entry.comparts, ∃ e, sub.read = .ok e
  array : ∀ entry ∈ debug.rComparts, ∃ name, entry.read = .ok name

/-- The sub-compartments of an object. -/
def subsOf (obj : Remote ObjEntry) : List (Remote CompartEntry) :=
  match obj.read with
  | .ok entry => entry.comparts
  | _ => []

def parentOf (obj : Remote ObjEntry) : Nat :=
  match obj.read with
  | .ok entry => entry.defaultCompartId
  | _ => 0

/-- The objects and sub-compartments whose names can be read, as they are
sent. -/
def readableInserts (t : Target) (obj : Remote ObjEntry) : List Statement :=
  ((linkObject t obj).map fun o => .replaceDefault o.compart).toList ++
    ((subsOf obj).filterMap (subobject t)).map fun s =>
      .replaceSubcompart (s.compart (parentOf obj))

/-- Their rows. -/
def readableRows (t : Target) (obj : Remote ObjEntry) : List CompInfo :=
  ((linkObject t obj).map fun o => o.compart.row).toList ++
    ((subsOf obj).filterMap (subobject t)).map fun s =>
      (s.compart (parentOf obj)).row

/-- The name of an element of the array, where it can be read. -/
def arrayName (t : Target) (entry : Remote ULong) : Option Text :=
  match entry.read with
  | .ok name => (t.getString name).result
  | _ => none

/-- What the walk is to look at. -/
def walkAddrs (debug : RDebug) : List ULong :=
  debug.rMap.flatMap fun obj => obj.addr :: (subsOf obj).map Remote.addr

/-- The names that can be read hold no quotes. -/
def NamesQuoteFree (t : Target) (debug : RDebug) : Prop :=
  ∀ obj ∈ debug.rMap, (∀ o, linkObject t obj = some o → QuoteFree o.path) ∧
    ∀ sub ∈ subsOf obj, ∀ s, subobject t sub = some s → QuoteFree s.name

/-! ### The scans -/

/-- No name is handed to `get_filename_from_path` that is `NULL`, which would
end the scan; everything is looked at, and what has a readable name is recorded
as it would be without the others. -/
structure UnreadableSkipped (t : Target) (debug : RDebug) (db : Db) :
    Prop where
  linkmap : (scanRtldLinkmap t debug).Succeeds
  array : (scanRComparts t debug).outcome =
    .ok (debug.rComparts.map (arrayName t))
  walk : ∀ addr ∈ walkAddrs debug,
    .io addr ∈ (scanRtldLinkmap t debug).trace
  elements : ∀ entry ∈ debug.rComparts,
    .io entry.addr ∈ (scanRComparts t debug).trace
  inserts : statements (scanRtldLinkmap t debug).trace =
    debug.rMap.flatMap (readableInserts t)
  names : statements (scanRComparts t debug).trace =
    nameStatements (debug.rComparts.map (arrayName t))
  rows : (execTexts (statements (scanRtldLinkmap t debug).trace)
    db).comparts.rows.Perm (debug.rMap.flatMap (readableRows t))
  given : PlainNames [] (debug.rComparts.map (arrayName t)) → ∀ db' : Db,
    (execTexts (statements (scanRComparts t debug).trace) db').comparts.rows =
      db'.comparts.rows.map (givenName (debug.rComparts.map (arrayName t)))

variable {t : Target} {debug : RDebug}

theorem scanRtldLinkmap_succeeds_iff :
    (scanRtldLinkmap t debug).Succeeds ↔
      ∀ obj ∈ debug.rMap, ObjectReadable t obj := by
  rw [← Run.loop_succeeds_iff (objectStep_succeeds_iff t) []]
  constructor
  · intro h
    obtain ⟨_, _, h⟩ := Run.succeeds_bind_iff.1 h
    obtain ⟨head, hhead, _⟩ := Run.succeeds_bind_iff.1 h
    exact ⟨head, hhead⟩
  · rintro ⟨head, hhead⟩
    exact Run.succeeds_bind_iff.2 ⟨⟨⟩, rfl,
      Run.succeeds_bind_iff.2 ⟨head, hhead, head, rfl⟩⟩

theorem SubcompartReadable.exists_subobject {sub : Remote CompartEntry}
    (h : SubcompartReadable t sub) : ∃ s, subobject t sub = some s := by
  obtain ⟨entry, hread, hname⟩ := h
  obtain ⟨name, hname⟩ := Option.ne_none_iff_exists'.1 hname
  rw [subobject, hread]
  dsimp only
  exact ⟨_, by rw [hname, Option.map_some]⟩

/-- Where every element has an image, the images are those of the list. -/
theorem map_eq_filterMap_some {α β : Type} {f : α → Option β} {l : List α}
    (h : ∀ a ∈ l, ∃ b, f a = some b) : l.map f = (l.filterMap f).map some := by
  induction l with
  | nil => rfl
  | cons a l ih =>
      rw [List.forall_mem_cons] at h
      obtain ⟨⟨b, hb⟩, htail⟩ := h
      rw [List.map_cons, List.filterMap_cons_some hb, List.map_cons, hb,
        ih htail]

/-- What the scan reads of an object with readable names. -/
theorem ObjectReadable.exists_readsObject {obj : Remote ObjEntry}
    (h : ObjectReadable t obj) : ∃ o, ReadsObject t obj o ∧
      readableInserts t obj = o.inserts ∧ readableRows t obj = o.rows := by
  obtain ⟨entry, hread, hpath, hsubs⟩ := h
  obtain ⟨path, hpath⟩ := Option.ne_none_iff_exists'.1 hpath
  have hobject : linkObject t obj = some ⟨path, entry.defaultCompartId,
      entry.mapbase, entry.mapsize⟩ := by
    rw [linkObject, hread]
    dsimp only
    rw [hpath, Option.map_some]
  have hsubsOf : subsOf obj = entry.comparts := by rw [subsOf, hread]
  have hparent : parentOf obj = entry.defaultCompartId := by
    rw [parentOf, hread]
  refine ⟨⟨_, entry.comparts.filterMap (subobject t)⟩, ⟨hobject, ?_⟩, ?_, ?_⟩
  · intro entry' hread'
    cases hread.symm.trans hread'
    exact map_eq_filterMap_some fun sub hsub =>
      (hsubs sub hsub).exists_subobject
  · rw [readableInserts, hobject, hsubsOf, hparent]
    rfl
  · rw [readableRows, hobject, hsubsOf, hparent]
    rfl

theorem exists_readsObjects {rMap : List (Remote ObjEntry)}
    (h : ∀ obj ∈ rMap, ObjectReadable t obj) :
    ∃ objs, List.Forall₂ (ReadsObject t) rMap objs ∧
      (∀ o ∈ objs, ∃ obj ∈ rMap, ReadsObject t obj o) ∧
      rMap.flatMap (readableInserts t) = objs.flatMap CompartObject.inserts ∧
      rMap.flatMap (readableRows t) = objs.flatMap CompartObject.rows := by
  induction rMap with
  | nil => exact ⟨[], .nil, nofun, rfl, rfl⟩
  | cons obj rMap ih =>
      rw [List.forall_mem_cons] at h
      obtain ⟨o, ho, hinserts, hrows⟩ := h.1.exists_readsObject
      obtain ⟨objs, hobjs, hfrom, hallInserts, hallRows⟩ := ih h.2
      refine ⟨o :: objs, .cons ho hobjs, ?_, ?_, ?_⟩
      · refine List.forall_mem_cons.2 ⟨⟨obj, List.mem_cons_self, ho⟩, ?_⟩
        intro o' ho'
        obtain ⟨obj', hobj', hreads⟩ := hfrom o' ho'
        exact ⟨obj', List.mem_cons_of_mem _ hobj', hreads⟩
      · rw [List.flatMap_cons, List.flatMap_cons, hinserts, hallInserts]
      · rw [List.flatMap_cons, List.flatMap_cons, hrows, hallRows]

theorem readsName_arrayName {entry : Remote ULong}
    (h : CompartReadable entry) : ReadsName t entry (arrayName t entry) := by
  obtain ⟨name, hread⟩ := h
  exact ⟨name, hread, by rw [arrayName, hread]⟩

/-! ### The walk -/

theorem mem_trace_piodRead {α : Type} (addr : ULong) (r : ReadResult α) :
    .io addr ∈ (piodRead addr r).trace := by
  rw [piodRead_eq]
  exact List.mem_singleton_self _

theorem mem_trace_subcompartStep (parent : Nat) (u : PUnit)
    (sub : Remote CompartEntry) :
    .io sub.addr ∈ (subcompartStep t parent u sub).trace := by
  rw [subcompartStep, Run.mem_trace_bind]
  exact Or.inl (mem_trace_piodRead _ _)

/-- An object and its sub-compartments are looked at. -/
theorem mem_trace_objectStep {obj : Remote ObjEntry}
    (h : ObjectReadable t obj) {addr : ULong}
    (haddr : addr ∈ obj.addr :: (subsOf obj).map Remote.addr)
    (head : List CompartData) : .io addr ∈ (objectStep t head obj).trace := by
  rw [objectStep, Run.mem_trace_bind]
  rcases List.mem_cons.1 haddr with rfl | haddr
  · exact Or.inl (mem_trace_piodRead _ _)
  · obtain ⟨sub, hsub, rfl⟩ := List.mem_map.1 haddr
    have hsucceeds := (objectStep_succeeds_iff t head obj).2 h
    rw [objectStep] at hsucceeds
    obtain ⟨entry, hentry, hsucceeds⟩ := Run.succeeds_bind_iff.1 hsucceeds
    have hread := piodRead_ok hentry
    rw [subsOf, hread] at hsub
    refine Or.inr ⟨entry, hentry, ?_⟩
    -- the loop over the sub-compartments stands behind three other actions
    obtain ⟨path, hpath, hsucceeds⟩ := Run.succeeds_bind_iff.1 hsucceeds
    obtain ⟨name, hname, hsucceeds⟩ := Run.succeeds_bind_iff.1 hsucceeds
    obtain ⟨_, hsend, hsucceeds⟩ := Run.succeeds_bind_iff.1 hsucceeds
    obtain ⟨u, hloop, _⟩ := Run.succeeds_bind_iff.1 hsucceeds
    refine Run.mem_trace_bind.2 (Or.inr ⟨path, hpath, ?_⟩)
    refine Run.mem_trace_bind.2 (Or.inr ⟨name, hname, ?_⟩)
    refine Run.mem_trace_bind.2 (Or.inr ⟨_, hsend, ?_⟩)
    refine Run.mem_trace_bind.2 (Or.inl ?_)
    exact Run.mem_trace_loop ⟨u, hloop⟩ hsub fun u' =>
      mem_trace_subcompartStep _ u' sub

theorem mem_trace_scanRtldLinkmap (h : ∀ obj ∈ debug.rMap, ObjectReadable t obj)
    {addr : ULong} (haddr : addr ∈ walkAddrs debug) :
    .io addr ∈ (scanRtldLinkmap t debug).trace := by
  obtain ⟨obj, hobj, haddr⟩ := List.mem_flatMap.1 haddr
  have hloop := (Run.loop_succeeds_iff (objectStep_succeeds_iff t) []
    debug.rMap).2 h
  rw [scanRtldLinkmap]
  refine Run.mem_trace_bind.2 (Or.inr ⟨⟨⟩, rfl, ?_⟩)
  refine Run.mem_trace_bind.2 (Or.inl ?_)
  exact Run.mem_trace_loop hloop hobj
    (mem_trace_objectStep (h obj hobj) haddr)

theorem mem_trace_scanRComparts
    (h : ∀ entry ∈ debug.rComparts, CompartReadable entry)
    {entry : Remote ULong} (hentry : entry ∈ debug.rComparts) :
    .io entry.addr ∈ (scanRComparts t debug).trace := by
  obtain ⟨i, hi⟩ := List.mem_iff_getElem?.1 hentry
  have hmem : (entry, i) ∈ debug.rComparts.zipIdx :=
    List.mk_mem_zipIdx_iff_getElem?.2 hi
  have hloop := (Run.loop_succeeds_iff (compartStep_succeeds_iff t) []
    debug.rComparts.zipIdx).2 fun e he =>
      h e.1 (List.fst_mem_of_mem_zipIdx he)
  rw [scanRComparts]
  refine Run.mem_trace_bind.2 (Or.inr ⟨⟨⟩, rfl, ?_⟩)
  refine Run.mem_trace_bind.2 (Or.inl ?_)
  refine Run.mem_trace_loop hloop hmem fun names => ?_
  rw [compartStep, Run.mem_trace_bind]
  exact Or.inl (mem_trace_piodRead _ _)

/-! ### Which names have to be readable -/

/-- The names of all libraries and of all sub-compartments can be read. -/
def LinkNamesRead (t : Target) (debug : RDebug) : Prop :=
  ∀ obj ∈ debug.rMap, linkObject t obj ≠ none ∧
    ∀ sub ∈ subsOf obj, subobject t sub ≠ none

theorem ObjectsRead.readable_iff (h : ObjectsRead debug) :
    (∀ obj ∈ debug.rMap, ObjectReadable t obj) ↔ LinkNamesRead t debug := by
  refine forall₂_congr fun obj hobj => ?_
  obtain ⟨entry, hread, hsubs⟩ := h.objects obj hobj
  have hpath : linkObject t obj ≠ none ↔
      (t.getString entry.lName).result ≠ none := by
    rw [linkObject, hread]
    simp
  have hsub : ∀ sub ∈ entry.comparts,
      SubcompartReadable t sub ↔ subobject t sub ≠ none := by
    intro sub hsub
    obtain ⟨e, he⟩ := hsubs sub hsub
    rw [SubcompartReadable, subobject, he]
    simp
  rw [subsOf, hread, hpath]
  constructor
  · rintro ⟨entry', hread', hname, hall⟩
    cases hread.symm.trans hread'
    exact ⟨hname, fun sub hmem => (hsub sub hmem).1 (hall sub hmem)⟩
  · rintro ⟨hname, hall⟩
    exact ⟨entry, hread, hname, fun sub hmem => (hsub sub hmem).2 (hall sub hmem)⟩

/-- The statements for readable names are read by SQLite as they are meant. -/
theorem NamesQuoteFree.plainNames (h : NamesQuoteFree t debug)
    {objs : List CompartObject}
    (hobjs : ∀ o ∈ objs, ∃ obj ∈ debug.rMap, ReadsObject t obj o) :
    PlainNames objs [] := by
  refine ⟨fun o ho => ?_, nofun⟩
  obtain ⟨obj, hobj, hreads⟩ := hobjs o ho
  obtain ⟨hpath, hsubs⟩ := h obj hobj
  refine ⟨quoteFree_fileName (hpath o.object hreads.object), fun s hs => ?_⟩
  have hlink := hreads.object
  rw [linkObject] at hlink
  split at hlink
  · next entry hread =>
      have hmem : some s ∈ entry.comparts.map (subobject t) := by
        rw [hreads.subs entry hread]
        exact List.mem_map_of_mem hs
      obtain ⟨sub, hsub, hname⟩ := List.mem_map.1 hmem
      rw [subsOf, hread] at hsubs
      exact quoteFree_fileName (hsubs sub hsub s hname)
  · cases hlink

/-- Names that cannot be read are skipped, and everything else is recorded, if
and only if those of the libraries and of the sub-compartments can all be
read. -/
theorem unreadableSkipped_iff (hread : ObjectsRead debug)
    (hids : ((debug.rMap.flatMap (readableRows t)).map
      CompInfo.compartId).Nodup)
    (hquotes : NamesQuoteFree t debug) {db : Db}
    (hempty : db.comparts = Comparts.empty) :
    UnreadableSkipped t debug db ↔ LinkNamesRead t debug := by
  rw [← hread.readable_iff]
  constructor
  · intro h
    exact scanRtldLinkmap_succeeds_iff.1 h.linkmap
  · intro hreadable
    obtain ⟨objs, hobjs, hfrom, hinserts, hrows⟩ :=
      exists_readsObjects hreadable
    have harray : List.Forall₂ (ReadsName t) debug.rComparts
        (debug.rComparts.map (arrayName t)) := by
      rw [List.forall₂_map_right_iff, List.forall₂_same]
      exact fun entry hentry => readsName_arrayName (hread.array entry hentry)
    obtain ⟨hok, hnames⟩ := scanRComparts_names harray
    have hsent := (scanRtldLinkmap_inserts hobjs).2
    have hplain := hquotes.plainNames hfrom
    refine ⟨scanRtldLinkmap_succeeds_iff.2 hreadable, hok, ?_, ?_, ?_, hnames,
      ?_, ?_⟩
    · exact fun addr => mem_trace_scanRtldLinkmap hreadable
    · exact fun entry => mem_trace_scanRComparts hread.array
    · rw [hsent, hinserts]
    · rw [hsent, execTexts_eq_runAll hplain.faithful_inserts,
        runAll_comparts (inserts_writes objs), foldl_inserts, hempty, hrows]
      apply rows_foldl_replace
      rw [hrows] at hids
      exact hids
    · intro hgiven db'
      rw [hnames, execTexts_eq_runAll hgiven.faithful_names,
        runAll_comparts (nameStatements_writes _)]
      exact rows_nameStatements _ _

/-- One name of the array cannot be read, and is skipped. -/
theorem unreadable_element_skipped :
    UnreadableSkipped namedProcess oneSubcompartment Db.empty := by
  refine (unreadableSkipped_iff ⟨?_, ?_⟩ (by decide) ?_ rfl).2 ?_
  · intro obj hobj
    obtain rfl := List.mem_singleton.1 hobj
    refine ⟨_, rfl, fun sub hsub => ?_⟩
    obtain rfl := List.mem_singleton.1 hsub
    exact ⟨_, rfl⟩
  · simp [oneSubcompartment]
  · intro obj hobj
    obtain rfl := List.mem_singleton.1 hobj
    refine ⟨fun o ho => ?_, fun sub hsub s hs => ?_⟩
    · cases ho
      decide
    · obtain rfl := List.mem_singleton.1 hsub
      cases hs
      decide
  · intro obj hobj
    obtain rfl := List.mem_singleton.1 hobj
    refine ⟨by decide, fun sub hsub => ?_⟩
    obtain rfl := List.mem_singleton.1 hsub
    decide

/-- A process in which no name can be read. -/
def namelessProcess : Target :=
  { namedProcess with getString := fun addr => ⟨[addr], none⟩ }

/-- The first library without a readable name ends the program. -/
theorem unreadable_library_crashes :
    (scanRtldLinkmap namelessProcess oneSubcompartment).outcome =
        .error .crash ∧
      ¬ UnreadableSkipped namelessProcess oneSubcompartment Db.empty := by
  have hcrash : (scanRtldLinkmap namelessProcess oneSubcompartment).outcome =
      .error .crash := rfl
  refine ⟨hcrash, fun h => ?_⟩
  obtain ⟨head, hhead⟩ := h.linkmap
  rw [hcrash] at hhead
  cases hhead

end Chericat
