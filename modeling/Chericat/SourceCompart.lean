import Chericat.RegionLabels

/-!
The compartment that the graphs take for the source of a capability.  It is
that of the first block whose name matches the path of the capability, which
need not be the block the capability is stored in.
-/

namespace Chericat

open SqlLike

/-- The objects of the link map, as the scan reads them. -/
def LinkObjects (t : Target) (objs : List LinkObject) : Prop :=
  ∃ debug, (getRDebug t).outcome = .ok debug ∧
    debug.rMap.map (linkObject t) = objs.map some

theorem LinkObjects.unique {t : Target} {objs objs' : List LinkObject}
    (h : LinkObjects t objs) (h' : LinkObjects t objs') : objs = objs' := by
  obtain ⟨debug, hdebug, hobjs⟩ := h
  obtain ⟨debug', hdebug', hobjs'⟩ := h'
  rw [hdebug, Except.ok.injEq] at hdebug'
  subst hdebug'
  rw [hobjs] at hobjs'
  exact List.map_injective_iff.mpr (Option.some_injective _) hobjs'

/-- The last object of the link map, which is the first one compared, whose
path the name begins with. -/
def libraryFor (objs : List LinkObject) (name : Text) : Option LinkObject :=
  objs.reverse.find? fun o => o.path.isPrefixOf name

/-- The names begin with the paths of libraries of one compartment, or neither
begins with that of a library. -/
def SameAttribution (objs : List LinkObject) (a b : Text) : Prop :=
  (libraryFor objs a).map (·.defaultCompartId) =
    (libraryFor objs b).map (·.defaultCompartId)

instance (objs : List LinkObject) (a b : Text) :
    Decidable (SameAttribution objs a b) :=
  inferInstanceAs (Decidable (_ = _))

theorem findCompartId_scannedComparts (objs : List LinkObject) (name : Text) :
    findCompartId (scannedComparts objs) name =
      match libraryFor objs name with
      | some o => (o.defaultCompartId : Int)
      | none => -1 := by
  have htest : (fun c : CompartData => matchesPath c.path name) ∘
      LinkObject.data = fun o => o.path.isPrefixOf name := rfl
  rw [findCompartId, scannedComparts, ← List.map_reverse, List.find?_map,
    htest, libraryFor]
  cases objs.reverse.find? fun o => o.path.isPrefixOf name <;> rfl

theorem sameAttribution_iff {objs : List LinkObject} {a b : Text} :
    SameAttribution objs a b ↔ findCompartId (scannedComparts objs) a =
      findCompartId (scannedComparts objs) b := by
  rw [findCompartId_scannedComparts, findCompartId_scannedComparts,
    SameAttribution]
  rcases libraryFor objs a with - | o <;> rcases libraryFor objs b with - | o'
  · exact iff_of_true rfl rfl
  · refine iff_of_false nofun fun h => ?_
    change (-1 : Int) = (o'.defaultCompartId : Int) at h
    omega
  · refine iff_of_false nofun fun h => ?_
    change (o.defaultCompartId : Int) = -1 at h
    omega
  · simp

/-- The name of a block decides its compartment. -/
theorem scan_attributed {t : Target} (hclean : t.Clean)
    (hscan : (scanMem t).outcome = .ok ⟨⟩) :
    ∃ objs, LinkObjects t objs ∧ ∀ v ∈ (dbScanned t Db.empty).vm,
      v.compartId = findCompartId (scannedComparts objs) v.mmapPath := by
  obtain ⟨map, hmap⟩ := exists_map_of_ok hscan
  obtain ⟨debug, objs, hdebug, hobjs, hstored⟩ := stored_compartId hmap hscan
  refine ⟨objs, ⟨debug, hdebug, hobjs⟩, fun v hv => ?_⟩
  rw [(sameRows_dbScanned hclean Db.empty).vm] at hv
  obtain ⟨i, hi⟩ := List.mem_iff_getElem?.mp hv
  obtain ⟨kivp, st, _, hentry⟩ := hstored i v hi
  rw [hentry]
  rfl

/-- All blocks that the path of the capability selects have one compartment,
and the first of them gives that of the block it is stored in. -/
structure OwnCompart (q : Quoted) (db : Db) (cap : CapInfo) : Prop where
  same : ∃ rows, rowsLike q db cap.capLocPath = some rows ∧
    ∀ r ∈ rows, ∀ r' ∈ rows, r.compartId = r'.compartId
  source : ∀ v ∈ db.vm, v.mmapPath = cap.capLocPath →
    compartOf q db cap.capLocPath = some v.compartId

variable {q : Quoted} {db : Db}

/-- Where names decide compartments, a capability has its own one exactly when
all blocks whose names match its path have it. -/
theorem ownCompart_iff {cap : CapInfo} {attributed : Text → Int}
    (hid : ∀ v ∈ db.vm, v.compartId = attributed v.mmapPath)
    (hstored : ∃ v ∈ db.vm, v.mmapPath = cap.capLocPath)
    (hquote : apostrophe ∉ cap.capLocPath) :
    OwnCompart q db cap ↔ ∀ v ∈ db.vm,
      like (within cap.capLocPath) v.mmapPath = true →
        attributed v.mmapPath = attributed cap.capLocPath := by
  have hrows : rowsLike q db cap.capLocPath = some (db.vm.filter fun v =>
      like (within cap.capLocPath) v.mmapPath) := by
    rw [rowsLike, if_neg hquote]
  obtain ⟨s, hs, hpath⟩ := hstored
  have hself : s ∈ db.vm.filter fun v =>
      like (within cap.capLocPath) v.mmapPath :=
    List.mem_filter.mpr ⟨hs, hpath ▸ like_within_self _⟩
  constructor
  · rintro ⟨⟨rows, hsome, hsame⟩, _⟩ v hv hlike
    cases hrows.symm.trans hsome
    have heq := hsame v (List.mem_filter.mpr ⟨hv, hlike⟩) s hself
    rwa [hid v hv, hid s hs, hpath] at heq
  · intro h
    have hall : ∀ r ∈ db.vm.filter fun v =>
        like (within cap.capLocPath) v.mmapPath,
        r.compartId = attributed cap.capLocPath := by
      intro r hr
      obtain ⟨hrvm, hlike⟩ := List.mem_filter.mp hr
      rw [hid r hrvm, h r hrvm hlike]
    refine ⟨⟨_, hrows, fun r hr r' hr' => ?_⟩, fun v hv hname => ?_⟩
    · rw [hall r hr, hall r' hr']
    · obtain ⟨r, rest, hlist⟩ :=
        List.exists_cons_of_ne_nil (List.ne_nil_of_mem hself)
      have hfirst := hall r (hlist ▸ List.mem_cons_self)
      rw [compartOf, hrows, hlist, hid v hv, hname, ← hfirst]
      rfl

/-- The blocks that the path of a capability selects are all of the compartment
it is stored in if and only if the name of every block that matches the path is
attributed like the path. -/
theorem ownComparts_iff (q : Quoted) {t : Target} (hclean : t.Clean)
    (hscan : (scanMem t).outcome = .ok ⟨⟩)
    (hquotes : ∀ cap ∈ (dbScanned t Db.empty).capInfo,
      apostrophe ∉ cap.capLocPath) :
    (∀ cap ∈ (dbScanned t Db.empty).capInfo,
        OwnCompart q (dbScanned t Db.empty) cap) ↔
      ∃ objs, LinkObjects t objs ∧ ∀ cap ∈ (dbScanned t Db.empty).capInfo,
        ∀ v ∈ (dbScanned t Db.empty).vm,
          like (within cap.capLocPath) v.mmapPath = true →
            SameAttribution objs v.mmapPath cap.capLocPath := by
  obtain ⟨objs, hobjs, hid⟩ := scan_attributed hclean hscan
  have hiff : ∀ cap ∈ (dbScanned t Db.empty).capInfo,
      (OwnCompart q (dbScanned t Db.empty) cap ↔
        ∀ v ∈ (dbScanned t Db.empty).vm,
          like (within cap.capLocPath) v.mmapPath = true →
            SameAttribution objs v.mmapPath cap.capLocPath) := by
    intro cap hcap
    simp only [sameAttribution_iff]
    exact ownCompart_iff hid (scan_located hclean hscan cap hcap)
      (hquotes cap hcap)
  constructor
  · intro h
    exact ⟨objs, hobjs, fun cap hcap => (hiff cap hcap).mp (h cap hcap)⟩
  · rintro ⟨objs', hobjs', h⟩ cap hcap
    cases hobjs.unique hobjs'
    exact (hiff cap hcap).mpr (h cap hcap)

/-- No other block of this process matches the name of the stack. -/
theorem ls_ownComparts :
    (dbScanned lsTwiceTarget Db.empty).capInfo.map (·.capLocPath) =
        ["Stack".toList, "Stack".toList] ∧
      ∀ cap ∈ (dbScanned lsTwiceTarget Db.empty).capInfo,
        OwnCompart noQuotes (dbScanned lsTwiceTarget Db.empty) cap := by
  have hobjs : LinkObjects lsTwiceTarget [⟨lsPath, 1, 0x40000, 0x1000⟩] :=
    ⟨⟨[⟨0x8000, .ok ⟨0x9000, 0x40000, 0x1000, 1, []⟩⟩], []⟩, rfl, rfl⟩
  have hpaths : (dbScanned lsTwiceTarget Db.empty).capInfo.map (·.capLocPath) =
      ["Stack".toList, "Stack".toList] := by
    rw [lsTwiceTarget_scanned]
    decide +kernel
  refine ⟨hpaths, (ownComparts_iff noQuotes lsTwiceTarget_clean
    (by decide +kernel) ?_).mpr ⟨_, hobjs, ?_⟩⟩
  all_goals
    rw [lsTwiceTarget_scanned]
    decide +kernel

/-- The capability on the stack is attributed to the library whose name
contains the word. -/
theorem stack_taken_for_library :
    (scanMem stackLibTarget).outcome = .ok ⟨⟩ ∧
      (dbScanned stackLibTarget Db.empty).vm.map
          (fun v => (v.mmapPath, v.compartId)) =
        [(stackLib, 1), ("Stack".toList, -1)] ∧
      compartOf noQuotes (dbScanned stackLibTarget Db.empty) "Stack".toList =
        some 1 ∧
      ¬ ∀ cap ∈ (dbScanned stackLibTarget Db.empty).capInfo,
        OwnCompart noQuotes (dbScanned stackLibTarget Db.empty) cap := by
  rw [stackLibTarget_scanned]
  have hsource : compartOf noQuotes (dbAfter stackLibTarget Db.empty)
      "Stack".toList = some 1 := by
    decide +kernel
  have hstored : ∃ cap ∈ (dbAfter stackLibTarget Db.empty).capInfo,
      cap.capLocPath = "Stack".toList ∧
        ∃ v ∈ (dbAfter stackLibTarget Db.empty).vm,
          v.mmapPath = "Stack".toList ∧ v.compartId = -1 := by
    decide +kernel
  refine ⟨by decide +kernel, by decide +kernel, hsource, fun h => ?_⟩
  obtain ⟨cap, hcap, hpath, v, hv, hname, hid⟩ := hstored
  have hown := (h cap hcap).source v hv (hname.trans hpath.symm)
  rw [hpath, hsource, hid] at hown
  revert hown
  decide

end Chericat
