import Chericat.TableConsistency

/-!
Which compartment a block is attributed to.  The scan keeps the full paths of
the link-map objects to match them with the names of blocks, but the match is
a comparison of prefixes, in the reverse of the order of the link map.
-/

namespace Chericat

/-- A link-map object with a readable path. -/
structure LinkObject where
  path : Text
  defaultCompartId : Nat
  mapbase : ULong
  mapsize : ULong
deriving Repr, DecidableEq

def LinkObject.data (o : LinkObject) : CompartData :=
  { id := o.defaultCompartId
    path := some o.path
    startAddr := o.mapbase
    endAddr := o.mapbase + o.mapsize
    isDefault := true }

/-- The list `scan_rtld_linkmap` returns for the objects. -/
def scannedComparts (objs : List LinkObject) : List CompartData :=
  (objs.map LinkObject.data).reverse

/-! ### The list of the link map -/

/-- The object as the scan reads it. -/
def linkObject (t : Target) (obj : Remote ObjEntry) : Option LinkObject :=
  match obj.read with
  | .ok entry =>
      (t.getString entry.lName).result.map fun path =>
        ⟨path, entry.defaultCompartId, entry.mapbase, entry.mapsize⟩
  | _ => none

theorem objectStep_ok {t : Target} {head head' : List CompartData}
    {obj : Remote ObjEntry} (h : (objectStep t head obj).outcome = .ok head') :
    ∃ o, linkObject t obj = some o ∧ head' = o.data :: head := by
  rw [objectStep] at h
  obtain ⟨entry, hread, h⟩ := Run.bind_eq_ok h
  obtain ⟨path, hpath, h⟩ := Run.bind_eq_ok h
  obtain ⟨pathName, hname, h⟩ := Run.bind_eq_ok h
  obtain ⟨_, _, h⟩ := Run.bind_eq_ok h
  obtain ⟨_, _, h⟩ := Run.bind_eq_ok h
  cases hpath
  cases h
  have hentry := piodRead_ok hread
  cases hresult : (t.getString entry.lName).result with
  | none =>
      rw [hresult] at hname
      cases hname
  | some path =>
      refine ⟨⟨path, entry.defaultCompartId, entry.mapbase, entry.mapsize⟩, ?_, ?_⟩
      · simp [linkObject, hentry, hresult]
      · rfl

/-- A scan of the link map that completes returns the objects in reverse. -/
theorem scanRtldLinkmap_ok {t : Target} {debug : RDebug}
    {comparts : List CompartData}
    (h : (scanRtldLinkmap t debug).outcome = .ok comparts) :
    ∃ objs, debug.rMap.map (linkObject t) = objs.map some ∧
      comparts = scannedComparts objs := by
  rw [scanRtldLinkmap] at h
  obtain ⟨_, _, h⟩ := Run.bind_eq_ok h
  obtain ⟨head, hloop, h⟩ := Run.bind_eq_ok h
  obtain ⟨_, _, h⟩ := Run.bind_eq_ok h
  cases h
  refine Run.loop_induction (P := fun done _ head =>
    ∃ objs, done.map (linkObject t) = objs.map some ∧
      head = scannedComparts objs) hloop ⟨[], rfl, rfl⟩ ?_
  rintro done _ head obj head' ⟨objs, hdone, rfl⟩ hstep
  obtain ⟨o, ho, rfl⟩ := objectStep_ok hstep
  exact ⟨objs ++ [o], by simp [hdone, ho], by simp [scannedComparts]⟩

/-- Every row of `vm` carries the id found in the list of the link map. -/
theorem stored_compartId {t : Target} {map : List KinfoVmentry}
    (hmap : t.vmmap = some map) (hscan : (scanMem t).outcome = .ok ⟨⟩) :
    ∃ (debug : RDebug) (objs : List LinkObject),
      (getRDebug t).outcome = .ok debug ∧
      debug.rMap.map (linkObject t) = objs.map some ∧
      ∀ (i : Nat) (v : VmInfo), (dbAfter t Db.empty).vm[i]? = some v →
        ∃ kivp st, map[i]? = some kivp ∧
          v.toVmEntry = blockEntry t (scannedComparts objs) st kivp := by
  obtain ⟨c⟩ := exists_completedScan hmap hscan
  obtain ⟨objs, hobjs, heq⟩ := scanRtldLinkmap_ok c.comparts_eq
  obtain ⟨scanned, hscanned⟩ := loop_scanEntry c.final_eq
  refine ⟨c.debug, objs, c.debug_eq, hobjs, ?_⟩
  intro i v hv
  rw [c.dbAfter_eq hmap hscan] at hv
  simp only [Db.empty, List.nil_append, List.map_map, List.getElem?_map,
    Option.map_eq_some_iff, ← hscanned.values] at hv
  obtain ⟨p, hp, rfl⟩ := hv
  obtain ⟨st, hst⟩ := hscanned.described p (List.mem_of_getElem? hp)
  refine ⟨p.1.1, st, ?_, ?_⟩
  · rw [hscanned.map_eq, List.getElem?_map, hp]
    rfl
  · rw [← heq]
    simpa [VmEntry.inserted] using hst

/-! ### Attribution -/

/-- The id belongs to an object of the library, and is `-1` exactly when there
is none. -/
structure Attributed (objs : List LinkObject) (library : Text) (id : Int) :
    Prop where
  object : id ≠ -1 → ∃ o ∈ objs, o.path = library ∧ id = o.defaultCompartId
  none_iff : id = -1 ↔ ∀ o ∈ objs, o.path ≠ library

/-- The id stored for a block, the objects being in the given order. -/
def storedId (t : Target) (st : ScanState) (kivp : KinfoVmentry)
    (objs : List LinkObject) : Int :=
  (blockEntry t (scannedComparts objs) st kivp).compartId

/-- The block is attributed to its library in every order of the objects, and
the order does not matter when their paths are distinct. -/
structure AttributedInAnyOrder (t : Target) (st : ScanState)
    (kivp : KinfoVmentry) (objs : List LinkObject) : Prop where
  attributed : ∀ objs', objs'.Perm objs →
    Attributed objs' (libraryPath t st.seen kivp) (storedId t st kivp objs')
  stable : (objs.map LinkObject.path).Nodup → ∀ objs', objs'.Perm objs →
    storedId t st kivp objs' = storedId t st kivp objs

variable {t : Target} {st : ScanState} {kivp : KinfoVmentry}

theorem matchesPath_data {o : LinkObject} {name : Text} :
    matchesPath o.data.path name = true ↔ o.path <+: name :=
  List.isPrefixOf_iff_prefix

/-- What the search stores: the id of a matching object, or `-1` when nothing
matches. -/
theorem storedId_spec (t : Target) (st : ScanState) (kivp : KinfoVmentry)
    (objs : List LinkObject) :
    (∃ o ∈ objs, o.path <+: mmapPath t st kivp ∧
        storedId t st kivp objs = o.defaultCompartId) ∨
      (∀ o ∈ objs, ¬ o.path <+: mmapPath t st kivp) ∧
        storedId t st kivp objs = -1 := by
  change (∃ o ∈ objs, _ ∧ findCompartId _ _ = _) ∨ _ ∧ findCompartId _ _ = _
  rw [findCompartId]
  cases hfind : (scannedComparts objs).find? fun c =>
      matchesPath c.path (mmapPath t st kivp) with
  | none =>
      refine Or.inr ⟨fun o ho hprefix => ?_, rfl⟩
      rw [List.find?_eq_none] at hfind
      exact hfind o.data (by simpa [scannedComparts] using ⟨o, ho, rfl⟩)
        (matchesPath_data.2 hprefix)
  | some c =>
      have hc := List.mem_of_find?_eq_some hfind
      simp only [scannedComparts, List.mem_reverse, List.mem_map] at hc
      obtain ⟨o, ho, rfl⟩ := hc
      have hmatch := List.find?_some hfind
      exact Or.inl ⟨o, ho, matchesPath_data.1 hmatch, rfl⟩

/-- The object that comes last in the link map is looked at first. -/
theorem storedId_append_singleton {objs : List LinkObject} {o : LinkObject}
    (h : o.path <+: mmapPath t st kivp) :
    storedId t st kivp (objs ++ [o]) = o.defaultCompartId := by
  change findCompartId _ _ = _
  rw [findCompartId, scannedComparts, List.map_append, List.reverse_append]
  have hmatch : matchesPath o.data.path (mmapPath t st kivp) = true :=
    matchesPath_data.2 h
  simp only [List.map_cons, List.map_nil, List.reverse_singleton,
    List.singleton_append, List.find?_cons, hmatch]
  rfl

theorem libraryPath_prefix (t : Target) (st : ScanState)
    (kivp : KinfoVmentry) :
    libraryPath t st.seen kivp <+: mmapPath t st kivp :=
  List.prefix_append _ _

/-- Every object whose path begins the block's name has the id of an object of
the block's library. -/
def PrefixesAgree (t : Target) (st : ScanState) (kivp : KinfoVmentry)
    (objs : List LinkObject) : Prop :=
  ∀ o ∈ objs, o.path <+: mmapPath t st kivp →
    ∃ o' ∈ objs, o'.path = libraryPath t st.seen kivp ∧
      o'.defaultCompartId = o.defaultCompartId

theorem PrefixesAgree.perm {objs objs' : List LinkObject}
    (h : PrefixesAgree t st kivp objs) (hperm : objs'.Perm objs) :
    PrefixesAgree t st kivp objs' := by
  intro o ho hprefix
  obtain ⟨o', ho', heq⟩ := h o (hperm.mem_iff.1 ho) hprefix
  exact ⟨o', hperm.mem_iff.2 ho', heq⟩

theorem PrefixesAgree.attributed {objs : List LinkObject}
    (h : PrefixesAgree t st kivp objs) :
    Attributed objs (libraryPath t st.seen kivp)
      (storedId t st kivp objs) := by
  rcases storedId_spec t st kivp objs with ⟨o, ho, hprefix, hid⟩ | ⟨hnone, hid⟩
  · obtain ⟨o', ho', hpath, heq⟩ := h o ho hprefix
    constructor
    · intro _
      exact ⟨o', ho', hpath, by rw [hid, heq]⟩
    · constructor
      · intro hneg
        omega
      · intro hall
        exact absurd hpath (hall o' ho')
  · constructor
    · intro hne
      exact absurd hid hne
    · refine ⟨fun _ o ho hpath => hnone o ho ?_, fun _ => hid⟩
      rw [hpath]
      exact libraryPath_prefix t st kivp

theorem PrefixesAgree.stable {objs objs' : List LinkObject}
    (h : PrefixesAgree t st kivp objs)
    (hnodup : (objs.map LinkObject.path).Nodup) (hperm : objs'.Perm objs) :
    storedId t st kivp objs' = storedId t st kivp objs := by
  have hleft := (h.perm hperm).attributed
  have hright := h.attributed
  by_cases hnone : storedId t st kivp objs = -1
  · rw [hnone, hleft.none_iff]
    intro o ho
    exact hright.none_iff.1 hnone o (hperm.mem_iff.1 ho)
  · have hsome : storedId t st kivp objs' ≠ -1 := by
      intro hneg
      apply hnone
      rw [hright.none_iff]
      intro o ho
      exact hleft.none_iff.1 hneg o (hperm.mem_iff.2 ho)
    obtain ⟨o, ho, hpath, hid⟩ := hright.object hnone
    obtain ⟨o', ho', hpath', hid'⟩ := hleft.object hsome
    have heq : o' = o := List.inj_on_of_nodup_map hnodup
      (hperm.mem_iff.1 ho') ho (hpath'.trans hpath.symm)
    rw [hid, hid', heq]

theorem AttributedInAnyOrder.prefixesAgree {objs : List LinkObject}
    (h : AttributedInAnyOrder t st kivp objs) :
    PrefixesAgree t st kivp objs := by
  intro o ho hprefix
  obtain ⟨before, after, rfl⟩ := List.append_of_mem ho
  -- put the object where the search begins
  have hperm : (before ++ after ++ [o]).Perm (before ++ o :: after) := by
    rw [List.append_assoc]
    exact (List.perm_append_singleton o after).append_left before
  have hid : storedId t st kivp (before ++ after ++ [o]) = o.defaultCompartId :=
    storedId_append_singleton hprefix
  have hattributed := h.attributed _ hperm
  obtain ⟨o', ho', hpath, heq⟩ := hattributed.object (by rw [hid]; omega)
  refine ⟨o', hperm.mem_iff.1 ho', hpath, ?_⟩
  rw [hid] at heq
  exact_mod_cast heq.symm

/-- A block is attributed to its library, in every order of the link map, if
and only if the objects whose paths are prefixes of its name agree with its
library. -/
theorem attributedInAnyOrder_iff (t : Target) (st : ScanState)
    (kivp : KinfoVmentry) (objs : List LinkObject) :
    AttributedInAnyOrder t st kivp objs ↔ PrefixesAgree t st kivp objs := by
  constructor
  · exact AttributedInAnyOrder.prefixesAgree
  · intro h
    exact ⟨fun _ hperm => (h.perm hperm).attributed,
      fun hnodup _ hperm => h.stable hnodup hperm⟩

/-- A library, and another one whose path continues its path. -/
def prefixLibraries : List LinkObject :=
  [⟨"/lib/libc.so.7".toList, 2, 0x40000000, 0x200000⟩,
    ⟨"/lib/libc.so".toList, 1, 0x50000000, 0x200000⟩]

/-- The first page of the library with the longer path. -/
def libcBlock : KinfoVmentry :=
  { KinfoVmentry.sample 0x40000000 0x40001000 with
    kvePath := "/lib/libc.so.7".toList }

/-- The library with the shorter path captures the block of the other. -/
theorem prefix_library_captures :
    storedId (Target.sample [] fullMemory) ⟨[libcBlock], [.zero], []⟩
        libcBlock prefixLibraries = 1 ∧
      ¬ AttributedInAnyOrder (Target.sample [] fullMemory)
        ⟨[libcBlock], [.zero], []⟩ libcBlock prefixLibraries := by
  have hid : storedId (Target.sample [] fullMemory)
      ⟨[libcBlock], [.zero], []⟩ libcBlock prefixLibraries = 1 := by
    decide
  refine ⟨hid, fun h => ?_⟩
  obtain ⟨o, ho, hpath, heq⟩ := (h.attributed _ (List.Perm.refl _)).object
    (by rw [hid]; decide)
  rw [hid] at heq
  revert o
  decide

end Chericat
