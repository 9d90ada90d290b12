import Chericat.Graphs
import Chericat.ScanTexts
import Chericat.SectionLabels

/-!
The two graphs of the compartments.  They look for the same edges, one by the
full paths of the blocks and one by their base names.
-/

namespace Chericat

open Numeral SqlLike

/-! ### Lists of edges -/

/-- Some edge leads from the one to the other. -/
def Joined (edges : List Edge) (ends : Text × Text) : Prop :=
  ∃ e ∈ edges, e.src = ends.1 ∧ e.dest = ends.2

/-- No edge leads from a compartment to itself. -/
def LoopFree (edges : List Edge) : Prop := ∀ e ∈ edges, e.src ≠ e.dest

theorem Edge.joins_iff {e : Edge} {src dest : Text} :
    e.joins src dest = true ↔ e.src = src ∧ e.dest = dest := by
  rw [joins, Bool.and_eq_true, decide_eq_true_iff, decide_eq_true_iff]

theorem joined_concat (edges : List Edge) (e : Edge) (k : Text × Text) :
    Joined (edges ++ [e]) k ↔ Joined edges k ∨ k = (e.src, e.dest) := by
  simp only [Joined, List.mem_append, List.mem_singleton, or_and_right,
    exists_or, exists_eq_left]
  rw [Prod.ext_iff, eq_comm, eq_comm (b := e.dest)]

/-- An edge between the same compartments takes the place of another one. -/
theorem joined_replace {edges : List Edge} {e f : Edge} (he : e ∈ edges)
    (hsrc : e.src = f.src) (hdest : e.dest = f.dest) (k : Text × Text) :
    Joined (edges.erase e ++ [f]) k ↔ Joined edges k ∨ k = (f.src, f.dest) := by
  rw [joined_concat]
  constructor
  · rintro (⟨d, hd, hends⟩ | hk)
    · exact Or.inl ⟨d, List.mem_of_mem_erase hd, hends⟩
    · exact Or.inr hk
  · rintro (⟨d, hd, hends⟩ | hk)
    · by_cases hde : d = e
      · subst hde
        exact Or.inr (Prod.ext (hends.1.symm.trans hsrc)
          (hends.2.symm.trans hdest))
      · exact Or.inl ⟨d, (List.mem_erase_of_ne hde).mpr hd, hends⟩
    · exact Or.inr hk

theorem LoopFree.erase {edges : List Edge} (h : LoopFree edges) (e : Edge) :
    LoopFree (edges.erase e) :=
  fun d hd => h d (List.mem_of_mem_erase hd)

theorem LoopFree.concat {edges : List Edge} (h : LoopFree edges) {e : Edge}
    (he : e.src ≠ e.dest) : LoopFree (edges ++ [e]) := by
  intro d hd
  rcases List.mem_append.mp hd with hd | hd
  · exact h d hd
  · cases List.mem_singleton.mp hd
    exact he

/-! ### One capability and one range -/

variable (q : Quoted) (db : Db)

/-- The capability points into the range, and the filter lets it pass. -/
def Hit (cap : CapInfo) (name : Text) (range : VmInfo) : Prop :=
  pointsInto cap.capAddr range.toVmEntry = true ∧
    sameLibrary cap.capLocPath name = false

instance (cap : CapInfo) (name : Text) (range : VmInfo) :
    Decidable (Hit cap name range) :=
  inferInstanceAs (Decidable (_ ∧ _))

theorem hit_iff {cap : CapInfo} {name : Text} {range : VmInfo} :
    (pointsInto cap.capAddr range.toVmEntry &&
      !sameLibrary cap.capLocPath name) = true ↔ Hit cap name range := by
  rw [Bool.and_eq_true, Bool.not_eq_true', Hit]

/-- The source of the capability can be looked up where it is needed. -/
def SourceFound (name : Text) (cap : CapInfo) (range : VmInfo) : Prop :=
  Hit cap name range → ∃ i, compartOf q db cap.capLocPath = some i

/-- The edge that a hit draws to the compartment `dest`. -/
def Draws (name : Text) (dest : Int) (cap : CapInfo) (range : VmInfo)
    (ends : Text × Text) : Prop :=
  Hit cap name range ∧ ∃ i, compartOf q db cap.capLocPath = some i ∧
    i ≠ dest ∧ ends = (decText i, decText dest)

variable {q db}

/-- Only the source of a hit can be missing. -/
theorem hit_of_not_sourceFound {name : Text} {cap : CapInfo} {range : VmInfo}
    (h : ¬ SourceFound q db name cap range) :
    Hit cap name range ∧ compartOf q db cap.capLocPath = none := by
  simp only [SourceFound, not_forall, not_exists] at h
  obtain ⟨hhit, hnone⟩ := h
  exact ⟨hhit, Option.eq_none_iff_forall_ne_some.mpr hnone⟩

theorem not_draws {name : Text} {dest : Int} {cap : CapInfo}
    {range : VmInfo} (h : ¬ Hit cap name range) (ends : Text × Text) :
    ¬ Draws q db name dest cap range ends :=
  fun hdraws => h hdraws.1

theorem draws_iff {name : Text} {dest i : Int} {cap : CapInfo}
    {range : VmInfo} (h : Hit cap name range)
    (hi : compartOf q db cap.capLocPath = some i) (ends : Text × Text) :
    Draws q db name dest cap range ends ↔
      i ≠ dest ∧ ends = (decText i, decText dest) := by
  simp [Draws, h, hi]

theorem find?_joins_eq_none {edges : List Edge} (h : LoopFree edges)
    (x : Text) (P : Edge → Bool) :
    edges.find? (fun e => e.joins x x && P e) = none := by
  rw [List.find?_eq_none]
  intro e he hjoins
  rw [Bool.and_eq_true, Edge.joins_iff] at hjoins
  exact h e he (hjoins.1.1.trans hjoins.1.2.symm)

theorem hasCapsStep_adds (compartId : Int) (name : Text) (cap : CapInfo) :
    Steps.Adds (hasCapsStep q db compartId name cap) LoopFree Joined
      (SourceFound q db name cap) (Draws q db name compartId cap) := by
  constructor
  · intro edges range hloops hfound
    by_cases hhit : Hit cap name range
    · obtain ⟨i, hi⟩ := hfound hhit
      simp only [hasCapsStep, if_pos (hit_iff.2 hhit), hi, Option.bind_eq_bind,
        Option.bind_some, draws_iff hhit hi, Option.some.injEq,
        exists_eq_left']
      by_cases hsame : i = compartId
      · subst hsame
        have hnone := find?_joins_eq_none hloops (decText i) fun _ => true
        simp only [Bool.and_true] at hnone
        simp [hnone, hloops]
      · have hne : decText i ≠ decText compartId :=
          fun h => hsame (decText_injective h)
        simp only [hne, hsame, ne_eq, not_false_eq_true, if_true, true_and]
        rcases hfind : edges.find? (·.joins (decText i) (decText compartId))
          with - | e
        · simp only [hfind]
          exact ⟨hloops.concat hne, joined_concat _ _⟩
        · have hends := List.find?_some hfind
          rw [Edge.joins_iff] at hends
          simp only [hfind]
          exact ⟨(hloops.erase e).concat hne, joined_replace
            (List.mem_of_find?_eq_some hfind) hends.1 hends.2⟩
    · refine ⟨edges, ?_, hloops, fun k => ?_⟩
      · rw [hasCapsStep, if_neg (mt hit_iff.1 hhit)]
      · rw [or_iff_left (not_draws hhit k)]
  · intro edges range _ hfound
    obtain ⟨hhit, hnone⟩ := hit_of_not_sourceFound hfound
    rw [hasCapsStep, if_pos (hit_iff.2 hhit), hnone]
    rfl

/-! ### The pen widths -/

/-- Every edge has a pen width, and none is a loop. -/
structure Drawn (edges : List Edge) : Prop where
  loopFree : LoopFree edges
  widths : ∀ e ∈ edges, ∃ w, e.penwidth = some w

/-- The variable that holds the next pen width is bound, too. -/
structure EdgeState.Bound (s : EdgeState) : Prop where
  edges : Drawn s.edges
  penwidth : ∃ w, s.penwidth = some w

theorem EdgeState.Bound.strengthen_append {s : EdgeState} (h : s.Bound)
    {src dest : Text} (hne : src ≠ dest) (label : Text) :
    ∃ s', (s.strengthen src dest label).append src dest label = some s' ∧
      s'.Bound ∧
      ∀ k, Joined s'.edges k ↔ Joined s.edges k ∨ k = (src, dest) := by
  obtain ⟨w, hw⟩ := h.penwidth
  rw [EdgeState.strengthen]
  split
  · next e hfind =>
      have hmem := List.mem_of_find?_eq_some hfind
      have hends := List.find?_some hfind
      rw [Bool.and_eq_true, Edge.joins_iff] at hends
      obtain ⟨u, hu⟩ := h.edges.widths e hmem
      refine ⟨_, by rw [append, hu]; rfl, ⟨⟨?_, ?_⟩, ⟨_, rfl⟩⟩, ?_⟩
      · exact (h.edges.loopFree.erase e).concat hne
      · simp only [List.forall_mem_append, List.forall_mem_singleton]
        exact ⟨fun d hd => h.edges.widths d (List.mem_of_mem_erase hd),
          _, rfl⟩
      · exact joined_replace hmem hends.1.1 hends.1.2
  · refine ⟨⟨s.edges ++ [⟨src, dest, label, some w⟩], some w⟩, ?_,
      ⟨⟨?_, ?_⟩, ⟨w, rfl⟩⟩, ?_⟩
    · rw [append, hw]
      rfl
    · exact h.edges.loopFree.concat hne
    · simp only [List.forall_mem_append, List.forall_mem_singleton]
      exact ⟨h.edges.widths, _, rfl⟩
    · exact joined_concat _ _

theorem compartEdgeStep_adds (compartId : Int) (path : Text) (cap : CapInfo) :
    Steps.Adds (compartEdgeStep q db compartId path cap) EdgeState.Bound
      (fun s => Joined s.edges) (SourceFound q db path cap)
      (Draws q db path compartId cap) := by
  constructor
  · intro s range hs hfound
    by_cases hhit : Hit cap path range
    · obtain ⟨i, hi⟩ := hfound hhit
      simp only [compartEdgeStep, if_pos (hit_iff.2 hhit), hi,
        Option.bind_eq_bind, Option.bind_some, draws_iff hhit hi]
      by_cases hsame : i = compartId
      · subst hsame
        have hnone := find?_joins_eq_none hs.edges.loopFree (decText i)
          fun e => e.label = cap.perms
        simp [EdgeState.strengthen, hnone, hs]
      · have hne : decText i ≠ decText compartId :=
          fun h => hsame (decText_injective h)
        simp only [hne, hsame, ne_eq, not_false_eq_true, if_true, true_and]
        exact hs.strengthen_append hne cap.perms
    · refine ⟨s, ?_, hs, fun k => ?_⟩
      · rw [compartEdgeStep, if_neg (mt hit_iff.1 hhit)]
      · rw [or_iff_left (not_draws hhit k)]
  · intro s range _ hfound
    obtain ⟨hhit, hnone⟩ := hit_of_not_sourceFound hfound
    rw [compartEdgeStep, if_pos (hit_iff.2 hhit), hnone]
    rfl

/-! ### All capabilities and ranges of a name -/

variable (q db) in
/-- The query for the name is answered, and with it every source that is
needed. -/
def Searched (name : Text) : Prop :=
  ∃ ranges, rowsLike q db name = some ranges ∧
    ∀ cap ∈ db.capInfo, ∀ r ∈ ranges, SourceFound q db name cap r

variable (q db) in
/-- Some capability draws the edge through one of the ranges of the name. -/
def Reaches (name : Text) (dest : Int) (ends : Text × Text) : Prop :=
  ∃ ranges, rowsLike q db name = some ranges ∧
    ∃ cap ∈ db.capInfo, ∃ r ∈ ranges, Draws q db name dest cap r ends

theorem query_adds {α : Type} {Inv : List Edge → Prop} (name : α → Text)
    (dest : α → Int)
    {f : α → List VmInfo → List Edge → CapInfo → Option (List Edge)}
    (h : ∀ a ranges, Steps.Adds (f a ranges) Inv Joined
      (fun cap => ∀ r ∈ ranges, SourceFound q db (name a) cap r)
      fun cap k => ∃ r ∈ ranges, Draws q db (name a) (dest a) cap r k) :
    Steps.Adds
      (fun edges a => (rowsLike q db (name a)).bind fun ranges =>
        Steps.run (f a ranges) edges db.capInfo)
      Inv Joined (fun a => Searched q db (name a))
      fun a => Reaches q db (name a) (dest a) := by
  constructor
  · rintro edges a hinv ⟨ranges, hranges, hfound⟩
    obtain ⟨edges', hrun, hinv', hjoined⟩ :=
      (h a ranges).run.taken edges db.capInfo hinv hfound
    refine ⟨edges', ?_, hinv', fun k => ?_⟩
    · rw [hranges, Option.bind_some, hrun]
    · rw [hjoined, Reaches, hranges]
      simp only [Option.some.injEq, exists_eq_left']
  · intro edges a hinv hsearched
    rcases hranges : rowsLike q db (name a) with - | ranges
    · rfl
    · refine (h a ranges).run.refused edges db.capInfo hinv fun hfound => ?_
      exact hsearched ⟨ranges, hranges, hfound⟩

theorem hasCapsRow_adds :
    Steps.Adds (hasCapsRow q db) LoopFree Joined
      (fun row => Searched q db (baseName row.2))
      fun row => Reaches q db (baseName row.2) row.1 := by
  apply query_adds (fun row => baseName row.2) Prod.fst
  intro row ranges
  exact Steps.Adds.nested (fun _ => ranges)
    (hasCapsStep_adds row.1 (baseName row.2))

theorem compartCap_adds (compartId : Int) (path : Text)
    (ranges : List VmInfo) :
    Steps.Adds (compartCap q db compartId path ranges) Drawn Joined
      (fun cap => ∀ r ∈ ranges, SourceFound q db path cap r)
      fun cap k => ∃ r ∈ ranges, Draws q db path compartId cap r k := by
  constructor
  · intro edges cap hinv hfound
    obtain ⟨s, hrun, hs, hjoined⟩ :=
      (compartEdgeStep_adds compartId path cap).run.taken ⟨edges, some 10⟩
        ranges ⟨hinv, _, rfl⟩ hfound
    refine ⟨s.edges, ?_, hs.edges, hjoined⟩
    rw [compartCap, hrun, Option.map_some]
  · intro edges cap hinv hfound
    rw [compartCap, (compartEdgeStep_adds compartId path cap).run.refused
      ⟨edges, some 10⟩ ranges ⟨hinv, _, rfl⟩ hfound, Option.map_none]

theorem compartPath_adds (compartId : Int) :
    Steps.Adds (compartPath q db compartId) Drawn Joined (Searched q db)
      fun path => Reaches q db path compartId :=
  query_adds (fun path => path) (fun _ => compartId)
    fun path ranges => compartCap_adds compartId path ranges

theorem compartEdges_adds :
    Steps.Adds (compartEdges q db) Drawn Joined
      (fun id => ∀ path ∈ compartPaths db id, Searched q db path)
      fun id k => ∃ path ∈ compartPaths db id, Reaches q db path id k :=
  Steps.Adds.nested (compartPaths db) compartPath_adds

/-! ### The graphs -/

variable (q db) in
/-- Every block's name, as one of the functions forms it, is searched. -/
def AllSearched (name : Text → Text) : Prop :=
  ∀ v ∈ db.vm, Searched q db (name v.mmapPath)

variable (q db) in
/-- The edges of the function that forms the names of blocks in this way. -/
def Edges (name : Text → Text) (ends : Text × Text) : Prop :=
  ∃ v ∈ db.vm, Reaches q db (name v.mmapPath) v.compartId ends

theorem mem_compartPaths {id : Int} {path : Text} :
    path ∈ compartPaths db id ↔
      ∃ v ∈ db.vm, v.compartId = id ∧ v.mmapPath = path := by
  simp [compartPaths, List.mem_eraseDups, and_assoc]

theorem not_joined_nil (ends : Text × Text) : ¬ Joined [] ends := by
  rintro ⟨e, he, _⟩
  cases he

/-- The paths of all compartments are the names of all blocks. -/
theorem searched_iff_allSearched :
    (∀ id ∈ (db.vm.map (·.compartId)).eraseDups,
      ∀ path ∈ compartPaths db id, Searched q db path) ↔
        AllSearched q db fun path => path := by
  simp only [List.mem_eraseDups, List.forall_mem_map, mem_compartPaths]
  constructor
  · intro h v hv
    exact h v hv v.mmapPath ⟨v, hv, rfl, rfl⟩
  · rintro h _ _ _ ⟨v, hv, _, rfl⟩
    exact h v hv

/-- What `show_comparts` returns: the edges by the full paths. -/
theorem showComparts_spec :
    (AllSearched q db (fun path => path) → ∃ g, showComparts q db = some g ∧
      ∀ k, Joined g.edges k ↔ Edges q db (fun path => path) k) ∧
    (¬ AllSearched q db (fun path => path) → showComparts q db = none) := by
  have hids := @searched_iff_allSearched q db
  have hadds := (@compartEdges_adds q db).run
  have hstart : Drawn [] := ⟨nofun, nofun⟩
  constructor
  · intro hsearched
    obtain ⟨edges, hrun, _, hjoined⟩ :=
      hadds.taken [] _ hstart (hids.2 hsearched)
    refine ⟨_, by rw [showComparts, hrun]; rfl, fun k => ?_⟩
    rw [hjoined, or_iff_right (not_joined_nil k), Edges]
    simp only [List.mem_eraseDups, List.mem_map, mem_compartPaths]
    constructor
    · rintro ⟨_, _, _, ⟨v, hv, rfl, rfl⟩, hreaches⟩
      exact ⟨v, hv, hreaches⟩
    · rintro ⟨v, hv, hreaches⟩
      exact ⟨_, ⟨v, hv, rfl⟩, _, ⟨v, hv, rfl, rfl⟩, hreaches⟩
  · intro hsearched
    rw [showComparts, hadds.refused [] _ hstart (mt hids.1 hsearched)]
    rfl

/-- What `show_comparts_has_caps` returns: the edges by the base names. -/
theorem showCompartsHasCaps_spec :
    (AllSearched q db baseName → ∃ g, showCompartsHasCaps q db = some g ∧
      ∀ k, Joined g.edges k ↔ Edges q db baseName k) ∧
    (¬ AllSearched q db baseName → showCompartsHasCaps q db = none) := by
  have hrows : (∀ row ∈ (db.vm.map fun v =>
      (v.compartId, v.mmapPath)).eraseDups,
        Searched q db (baseName row.2)) ↔ AllSearched q db baseName := by
    simp only [List.mem_eraseDups, List.forall_mem_map, AllSearched]
  have hadds := (@hasCapsRow_adds q db).run
  have hstart : LoopFree [] := nofun
  constructor
  · intro hsearched
    obtain ⟨edges, hrun, _, hjoined⟩ :=
      hadds.taken [] _ hstart (hrows.2 hsearched)
    refine ⟨_, by rw [showCompartsHasCaps, hrun]; rfl, fun k => ?_⟩
    rw [hjoined, or_iff_right (not_joined_nil k), Edges]
    simp only [List.mem_eraseDups, List.mem_map, exists_exists_and_eq_and]
  · intro hsearched
    rw [showCompartsHasCaps, hadds.refused [] _ hstart (mt hrows.1 hsearched)]
    rfl

/-! ### Agreement -/

variable (q db)

/-- Both functions return, and draw edges between the same compartments. -/
def GraphsAgree : Prop :=
  ∃ g g', showComparts q db = some g ∧ showCompartsHasCaps q db = some g' ∧
    ∀ ends, Joined g.edges ends ↔ Joined g'.edges ends

/-- The query for the name selects the range. -/
def Selected (name : Text) (range : VmInfo) : Prop :=
  ∃ ranges, rowsLike q db name = some ranges ∧ range ∈ ranges

/-- The capability hits a range that is looked up by this name. -/
def Found (name : Text) (cap : CapInfo) (range : VmInfo) : Prop :=
  Selected q db name range ∧ Hit cap name range

/-- A capability of the one compartment hits a block of the other. -/
def Links (name : Text → Text) (src dest : Int) : Prop :=
  ∃ v ∈ db.vm, v.compartId = dest ∧ ∃ cap ∈ db.capInfo,
    compartOf q db cap.capLocPath = some src ∧
      ∃ r, Found q db (name v.mmapPath) cap r

/-- Hits of this kind do not matter: where the one form of the names makes one
from another compartment, the other form links these compartments, too. -/
def Covered (name other : Text → Text)
    (kind : Text → CapInfo → VmInfo → Prop) : Prop :=
  ∀ v ∈ db.vm, ∀ cap ∈ db.capInfo, ∀ r i,
    Found q db (name v.mmapPath) cap r → kind v.mmapPath cap r →
    compartOf q db cap.capLocPath = some i → i ≠ v.compartId →
    Links q db other i v.compartId

/-- When base names do as well as full paths.  A base name also selects blocks
of other paths, and is not the full path that capabilities of the library are
stored under; it can be confused with the name of another block. -/
structure BaseNamesServe : Prop where
  paths : AllSearched q db fun path => path
  names : AllSearched q db baseName
  elsewhere : Covered q db baseName (fun path => path)
    fun path _ r => ¬ Selected q db path r
  own : Covered q db baseName (fun path => path)
    fun path cap _ => sameLibrary cap.capLocPath path = true
  confused : Covered q db (fun path => path) baseName
    fun path cap _ => sameLibrary cap.capLocPath (baseName path) = true
  quoted : Covered q db (fun path => path) baseName
    fun path _ r => apostrophe ∈ path ∧ ¬ Selected q db (baseName path) r

variable {q db}

theorem edges_iff {name : Text → Text} {ends : Text × Text} :
    Edges q db name ends ↔ ∃ src dest, src ≠ dest ∧
      Links q db name src dest ∧ ends = (decText src, decText dest) := by
  constructor
  · rintro ⟨v, hv, ranges, hranges, cap, hcap, r, hr, hhit, i, hi, hne, rfl⟩
    exact ⟨i, v.compartId, hne,
      ⟨v, hv, rfl, cap, hcap, hi, r, ⟨ranges, hranges, hr⟩, hhit⟩, rfl⟩
  · rintro ⟨i, _, hne, ⟨v, hv, rfl, cap, hcap, hi, r, ⟨ranges, hranges, hr⟩,
      hhit⟩, rfl⟩
    exact ⟨v, hv, ranges, hranges, cap, hcap, r, hr, hhit, i, hi, hne, rfl⟩

/-- The ends of an edge are the texts of two compartments. -/
theorem edges_decText {name : Text → Text} {src dest : Int} :
    Edges q db name (decText src, decText dest) ↔
      src ≠ dest ∧ Links q db name src dest := by
  rw [edges_iff]
  constructor
  · rintro ⟨i, j, hne, hlinks, hends⟩
    rw [Prod.mk.injEq] at hends
    cases decText_injective hends.1
    cases decText_injective hends.2
    exact ⟨hne, hlinks⟩
  · rintro ⟨hne, hlinks⟩
    exact ⟨src, dest, hne, hlinks, rfl⟩

theorem edges_of_covered {name other : Text → Text}
    (h : Covered q db name other
      fun path cap r => ¬ Found q db (other path) cap r)
    {ends : Text × Text} (hends : Edges q db name ends) :
    Edges q db other ends := by
  obtain ⟨i, _, hne, ⟨v, hv, rfl, cap, hcap, hi, r, hfound⟩, rfl⟩ :=
    edges_iff.1 hends
  rw [edges_decText]
  by_cases hother : Found q db (other v.mmapPath) cap r
  · exact ⟨hne, v, hv, rfl, cap, hcap, hi, r, hother⟩
  · exact ⟨hne, h v hv cap hcap r i hfound hother hi hne⟩

theorem covered_of_edges {name other : Text → Text}
    (h : ∀ ends, Edges q db name ends → Edges q db other ends)
    (kind : Text → CapInfo → VmInfo → Prop) :
    Covered q db name other kind := by
  intro v hv cap hcap r i hfound _ hi hne
  have hedge : Edges q db name (decText i, decText v.compartId) :=
    edges_decText.2 ⟨hne, v, hv, rfl, cap, hcap, hi, r, hfound⟩
  exact (edges_decText.1 (h _ hedge)).2

/-- What points into a range misses it under another name when this does not
select the range, or the filter takes it for the library itself. -/
theorem not_found_iff {name other : Text} {cap : CapInfo} {r : VmInfo}
    (h : Found q db name cap r) : ¬ Found q db other cap r ↔
      ¬ Selected q db other r ∨ sameLibrary cap.capLocPath other = true := by
  rw [Found, Hit, not_and_or, not_and_or, or_iff_right (not_not.2 h.2.1),
    Bool.not_eq_false]

theorem Covered.or {name other : Text → Text}
    {kind kind' : Text → CapInfo → VmInfo → Prop}
    (h : Covered q db name other kind) (h' : Covered q db name other kind') :
    Covered q db name other fun path cap r =>
      kind path cap r ∨ kind' path cap r := by
  rintro v hv cap hcap r i hfound (hkind | hkind) hi hne
  · exact h v hv cap hcap r i hfound hkind hi hne
  · exact h' v hv cap hcap r i hfound hkind hi hne

theorem baseName_suffix (path : Text) : baseName path <:+ path := by
  rw [baseName, ← List.reverse_prefix, List.reverse_reverse]
  exact List.takeWhile_prefix _

/-- A range of a path without quotes is a range of its base name. -/
theorem Selected.baseName {path : Text} (hpath : apostrophe ∉ path)
    {r : VmInfo} (h : Selected q db path r) :
    Selected q db (baseName path) r := by
  obtain ⟨u, hu⟩ := baseName_suffix path
  have hname : apostrophe ∉ Chericat.baseName path :=
    fun hmem => hpath ((baseName_suffix path).subset hmem)
  obtain ⟨ranges, hranges, hr⟩ := h
  rw [rowsLike, if_neg hpath, Option.some.injEq] at hranges
  subst hranges
  rw [List.mem_filter] at hr
  refine ⟨_, by rw [rowsLike, if_neg hname], List.mem_filter.mpr ⟨hr.1, ?_⟩⟩
  apply like_within_of_append (p := u)
  rw [hu]
  exact hr.2

/-- The two graphs have the same edges if and only if base names do as well as
full paths. -/
theorem graphsAgree_iff (q : Quoted) (db : Db) :
    GraphsAgree q db ↔ BaseNamesServe q db := by
  have hdetailed := @showComparts_spec q db
  have hplain := @showCompartsHasCaps_spec q db
  constructor
  · rintro ⟨g, g', hg, hg', hsame⟩
    have hpaths : AllSearched q db fun path => path := by
      by_contra hnot
      rw [hdetailed.2 hnot] at hg
      cases hg
    have hnames : AllSearched q db baseName := by
      by_contra hnot
      rw [hplain.2 hnot] at hg'
      cases hg'
    obtain ⟨_, hd, hedges⟩ := hdetailed.1 hpaths
    obtain ⟨_, hp, hedges'⟩ := hplain.1 hnames
    cases hg.symm.trans hd
    cases hg'.symm.trans hp
    simp only [hedges, hedges'] at hsame
    have hextra := covered_of_edges fun k => (hsame k).2
    have hmissed := covered_of_edges fun k => (hsame k).1
    exact ⟨hpaths, hnames, hextra _, hextra _, hmissed _, hmissed _⟩
  · rintro ⟨hpaths, hnames, helsewhere, hown, hconfused, hquoted⟩
    have hextra : Covered q db baseName (fun path => path)
        fun path cap r => ¬ Found q db path cap r := by
      intro v hv cap hcap r i hfound hnot
      exact (helsewhere.or hown) v hv cap hcap r i hfound
        ((not_found_iff hfound).1 hnot)
    have hmissed : Covered q db (fun path => path) baseName
        fun path cap r => ¬ Found q db (baseName path) cap r := by
      intro v hv cap hcap r i hfound hnot
      refine (hquoted.or hconfused) v hv cap hcap r i hfound
        (((not_found_iff hfound).1 hnot).imp_left fun hselected => ⟨?_, hselected⟩)
      by_contra hpath
      exact hselected (hfound.1.baseName hpath)
    obtain ⟨g, hg, hedges⟩ := hdetailed.1 hpaths
    obtain ⟨g', hg', hedges'⟩ := hplain.1 hnames
    refine ⟨g, g', hg, hg', fun k => ?_⟩
    rw [hedges, hedges']
    exact ⟨edges_of_covered hmissed, edges_of_covered hextra⟩

/-! ### Paths without quotes -/

/-- Every capability is stored in a block of `vm`, and no path holds a quote. -/
structure PlainTables (db : Db) : Prop where
  located : ∀ cap ∈ db.capInfo, ∃ v ∈ db.vm, v.mmapPath = cap.capLocPath
  quotes : ∀ v ∈ db.vm, apostrophe ∉ v.mmapPath

/-- A path matches itself, so the block of the capability is among those its
path selects. -/
theorem PlainTables.compartOf_eq_some (h : PlainTables db) {cap : CapInfo}
    (hcap : cap ∈ db.capInfo) :
    ∃ i, compartOf q db cap.capLocPath = some i := by
  obtain ⟨v, hv, hpath⟩ := h.located cap hcap
  have hquote : apostrophe ∉ cap.capLocPath := hpath ▸ h.quotes v hv
  have hmem : v ∈ db.vm.filter fun v =>
      like (within cap.capLocPath) v.mmapPath := by
    refine List.mem_filter.mpr ⟨hv, ?_⟩
    rw [hpath]
    exact like_within_self _
  obtain ⟨r, rows, hrows⟩ := List.exists_cons_of_ne_nil
    (List.ne_nil_of_mem hmem)
  refine ⟨r.compartId, ?_⟩
  rw [compartOf, rowsLike, if_neg hquote, hrows]
  rfl

/-- All queries are answered, and every source is found. -/
theorem PlainTables.allSearched (h : PlainTables db) {name : Text → Text}
    (hname : ∀ path, name path ⊆ path) : AllSearched q db name := by
  intro v hv
  have hquote : apostrophe ∉ name v.mmapPath :=
    fun hmem => h.quotes v hv (hname _ hmem)
  refine ⟨_, by rw [rowsLike, if_neg hquote], ?_⟩
  intro cap hcap r _ _
  exact h.compartOf_eq_some hcap

/-! ### A capability on the stack -/

def lsPath : Text := "/bin/ls".toList

/-- One tagged granule on the stack, with a capability into the program. -/
def stackMemory (i : Nat) : Memory where
  tags _ := some (.ofFirst (if i = 1 then 1 else 0))
  cap _ := ⟨true, ⟨0x40010, "rwRW".toList, 0x40000, 0x41000, none⟩⟩

/-- A program in compartment 1, and its stack. -/
def lsTarget : Target :=
  { Target.withElf
      [blockOf lsPath 0x40000 0x41000,
        { KinfoVmentry.sample 0x7f000 0x80000 with kveFlags := 0x40000020 }]
      (oneSection ".text".toList) with
    readRDebug := fun _ =>
      .ok ⟨[⟨0x8000, .ok ⟨0x9000, 0x40000, 0x1000, 1, []⟩⟩], []⟩
    getString := fun addr => ⟨[addr], some lsPath⟩
    memory := stackMemory }

/-- Its map. -/
def lsMap : List KinfoVmentry :=
  [blockOf lsPath 0x40000 0x41000,
    { KinfoVmentry.sample 0x7f000 0x80000 with kveFlags := 0x40000020 }]

/-- The same with two such granules. -/
def lsTwiceTarget : Target :=
  { lsTarget with
    memory := fun i =>
      { stackMemory i with
        tags := fun _ => some (.ofFirst (if i = 1 then 3 else 0)) } }

/-- Processes with one library in their link map, whose file names no
symbols. -/
theorem lsProcess_clean (map : List KinfoVmentry) (path : Text)
    (memory : Nat → Memory) (hpaths : ∀ kivp ∈ map,
      SqlText.QuoteFree kivp.kvePath ∧
        SqlText.lower kivp.kvePath ∉ vmNames) (hpath : SqlText.QuoteFree path)
    (hperms : ∀ i a, SqlText.QuoteFree ((memory i).cap a).copy.perms) :
    Target.Clean { lsTarget with
      vmmap := some map
      getString := fun addr => ⟨[addr], some path⟩
      memory := memory } := by
  refine clean_of_unnamed rfl hpaths ?_ ?_ hperms rfl
  · intro a s hs
    cases hs
    exact hpath
  · intro path file hfile
    cases hfile
    exact oneSection_unnamed _

theorem lsProcess_scanned (map : List KinfoVmentry) (path : Text)
    (memory : Nat → Memory) (hpaths : ∀ kivp ∈ map,
      SqlText.QuoteFree kivp.kvePath ∧
        SqlText.lower kivp.kvePath ∉ vmNames) (hpath : SqlText.QuoteFree path)
    (hperms : ∀ i a, SqlText.QuoteFree ((memory i).cap a).copy.perms)
    (db : Db) :
    let t : Target := { lsTarget with
      vmmap := some map
      getString := fun addr => ⟨[addr], some path⟩
      memory := memory }
    dbScanned t db = dbAfter t db := by
  refine dbScanned_eq (lsProcess_clean map path memory hpaths hpath hperms) ?_ db
  intro debug hdebug
  cases hdebug
  exact List.forall_mem_nil _

theorem lsMap_plain : ∀ kivp ∈ lsMap, SqlText.QuoteFree kivp.kvePath ∧
    SqlText.lower kivp.kvePath ∉ vmNames := by
  decide +kernel

theorem rwRW_quoteFree : SqlText.QuoteFree "rwRW".toList := by
  decide

theorem lsTarget_clean : lsTarget.Clean :=
  lsProcess_clean lsMap lsPath _ lsMap_plain (by decide) fun _ _ =>
    rwRW_quoteFree

theorem lsTarget_cleanArray : lsTarget.CleanArray := by
  intro debug hdebug
  cases hdebug
  exact List.forall_mem_nil _

theorem lsTarget_scanned (db : Db) : dbScanned lsTarget db = dbAfter lsTarget db :=
  lsProcess_scanned lsMap lsPath _ lsMap_plain (by decide)
    (fun _ _ => rwRW_quoteFree) db

theorem lsTwiceTarget_clean : lsTwiceTarget.Clean :=
  lsProcess_clean lsMap lsPath _ lsMap_plain (by decide) fun _ _ =>
    rwRW_quoteFree

theorem lsTwiceTarget_scanned :
    dbScanned lsTwiceTarget Db.empty = dbAfter lsTwiceTarget Db.empty :=
  lsProcess_scanned lsMap lsPath _ lsMap_plain (by decide)
    (fun _ _ => rwRW_quoteFree) Db.empty

/-- Every query with a quote in it fails. -/
def noQuotes : Quoted := ⟨fun _ => none, fun _ => none⟩

/-- The base name of the program and the name of the stack have six characters
at most: only the detailed graph has the edge. -/
theorem short_names_confused :
    (scanMem lsTarget).outcome = .ok ⟨⟩ ∧
      ¬ GraphsAgree noQuotes (dbAfter lsTarget Db.empty) := by
  have hdetailed : (showComparts noQuotes (dbAfter lsTarget Db.empty)).map
      Graph.edges =
        some [⟨decText (-1), decText 1, "rwRW".toList, some 10⟩] := by
    decide +kernel
  have hplain : (showCompartsHasCaps noQuotes
      (dbAfter lsTarget Db.empty)).map Graph.edges = some [] := by
    decide +kernel
  refine ⟨by decide +kernel, ?_⟩
  rintro ⟨g, g', hg, hg', hsame⟩
  rw [hg, Option.map_some, Option.some.injEq] at hdetailed
  rw [hg', Option.map_some, Option.some.injEq] at hplain
  have hjoined := hsame (decText (-1), decText 1)
  rw [hdetailed, hplain] at hjoined
  exact not_joined_nil _ (hjoined.1 ⟨_, List.mem_singleton_self _, rfl, rfl⟩)

end Chericat
