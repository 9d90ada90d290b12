import Chericat.CompartGraphs
import Chericat.EdgeWeights

/-!
The graph of all libraries: an edge counts the triples of a path, a capability
and a block range that its key stands for, whatever order the capabilities are
in.
-/

namespace Chericat

open SqlLike

/-! ### What an edge counts -/

section Counting

variable (q : Quoted) (db : Db)

/-- The distinct paths, each of which gets a node. -/
def fullGraphPaths : List Text := (db.vm.map (·.mmapPath)).eraseDups

/-- The block ranges of a path, when its query is answered. -/
def rangesOf (path : Text) : List VmInfo := (rowsLike q db path).getD []

/-- A path, a capability and a block range that the loops look at together. -/
structure Triple where
  path : Text
  cap : CapInfo
  range : VmInfo

def fullGraphTriples : List Triple :=
  (fullGraphPaths db).flatMap fun path => db.capInfo.flatMap fun cap =>
    (rangesOf q db path).map (⟨path, cap, ·⟩)

/-- The key of the edge from the source of the capability to the path. -/
def fullGraphKey (path : Text) (cap : CapInfo) : Option EdgeKey := do
  let src ← capPathLabel db cap.capLocPath
  let dest ← pathLabel path (rangesOf q db path)
  some (src, dest, cap.perms)

/-- The triple passes the tests and has the key. -/
def Triple.Passes (t : Triple) (k : EdgeKey) : Prop :=
  Hit t.cap t.path t.range ∧ fullGraphKey q db t.path t.cap = some k

instance (t : Triple) (k : EdgeKey) : Decidable (t.Passes q db k) :=
  inferInstanceAs (Decidable (_ ∧ _))

def fullGraphCount (k : EdgeKey) : Nat :=
  (fullGraphTriples q db).countP (Triple.Passes q db · k)

end Counting

variable {q : Quoted} {db : Db}

theorem rangesOf_eq {path : Text} {ranges : List VmInfo}
    (h : rowsLike q db path = some ranges) : rangesOf q db path = ranges := by
  rw [rangesOf, h, Option.getD_some]

theorem mem_fullGraphTriples {t : Triple} :
    t ∈ fullGraphTriples q db ↔ t.path ∈ fullGraphPaths db ∧
      t.cap ∈ db.capInfo ∧ t.range ∈ rangesOf q db t.path := by
  simp only [fullGraphTriples, List.mem_flatMap, List.mem_map]
  constructor
  · rintro ⟨path, hpath, cap, hcap, range, hrange, rfl⟩
    exact ⟨hpath, hcap, hrange⟩
  · rintro ⟨hpath, hcap, hrange⟩
    exact ⟨t.path, hpath, t.cap, hcap, t.range, hrange, rfl⟩

theorem fullGraphCount_pos_iff {k : EdgeKey} :
    0 < fullGraphCount q db k ↔
      ∃ t ∈ fullGraphTriples q db, t.Passes q db k := by
  simp [fullGraphCount, List.countP_pos_iff]

/-- The order of the capabilities does not matter. -/
theorem fullGraphCount_perm {db' : Db} (hvm : db'.vm = db.vm)
    (hcaps : db'.capInfo.Perm db.capInfo) :
    fullGraphCount q db' = fullGraphCount q db := by
  have hrows : ∀ path, rowsLike q db' path = rowsLike q db path := by
    intro path
    rw [rowsLike, rowsLike, hvm]
  have hranges : rangesOf q db' = rangesOf q db := by
    funext path
    rw [rangesOf, rangesOf, hrows]
  have hkey : fullGraphKey q db' = fullGraphKey q db := by
    funext path cap
    rw [fullGraphKey, fullGraphKey, hranges, capPathLabel, capPathLabel, hvm]
  have htriples : (fullGraphTriples q db').Perm (fullGraphTriples q db) := by
    rw [fullGraphTriples, fullGraphTriples, hranges, fullGraphPaths,
      fullGraphPaths, hvm]
    exact List.Perm.flatMap_left _ fun path _ => hcaps.flatMap_right _
  have hpasses : ∀ t : Triple, ∀ k, t.Passes q db' k ↔ t.Passes q db k := by
    intro t k
    rw [Triple.Passes, Triple.Passes, hkey]
  funext k
  rw [fullGraphCount, htriples.countP_eq]
  refine List.countP_congr fun t _ => ?_
  rw [decide_eq_true_iff, decide_eq_true_iff, hpasses]

/-! ### One capability and one range -/

section Steps

variable (q db)

/-- The key of the edge to the node with this label. -/
def labelledKey (label : Text) (cap : CapInfo) : Option EdgeKey :=
  (capPathLabel db cap.capLocPath).map fun src => (src, label, cap.perms)

/-- The source gets a label where it is needed. -/
def SourceLabelled (path : Text) (cap : CapInfo) (range : VmInfo) : Prop :=
  Hit cap path range → (capPathLabel db cap.capLocPath).isSome

end Steps

theorem fullGraphStep_tallies (path label : Text) (cap : CapInfo) :
    Steps.Tallies (fullGraphStep db path label cap)
      (EdgeState.Counts (labelledKey db label cap))
      (SourceLabelled db path cap)
      fun range k =>
        if Hit cap path range ∧ labelledKey db label cap = some k
        then 1 else 0 := by
  constructor
  · intro s n range hs hok
    by_cases hhit : Hit cap path range
    · obtain ⟨src, hsrc⟩ := Option.isSome_iff_exists.mp (hok hhit)
      rw [labelledKey, hsrc, Option.map_some] at hs ⊢
      obtain ⟨s', hs', _, hcounts⟩ := hs.draw
      refine ⟨s', ?_, ?_⟩
      · rw [fullGraphStep, if_pos (hit_iff.mpr hhit), hsrc]
        exact hs'
      · simpa only [hhit, true_and, once] using hcounts
    · refine ⟨s, by rw [fullGraphStep, if_neg (mt hit_iff.mp hhit)], ?_⟩
      simpa only [hhit, false_and, if_false, add_zero] using hs
  · intro s n range _ hok
    simp only [SourceLabelled, Classical.not_imp, Option.not_isSome_iff_eq_none]
      at hok
    rw [fullGraphStep, if_pos (hit_iff.mpr hok.1), hok.2]
    rfl

/-! ### All loops -/

/-- A list of edges stands for the numbers it is the table of. -/
def Tabled (edges : List Edge) (n : EdgeKey → Nat) : Prop :=
  EdgeMap edges fun k => widthOf (n k)

theorem fullGraphCap_tallies (path label : Text) (ranges : List VmInfo) :
    Steps.Tallies (fullGraphCap db path label ranges) Tabled
      (fun cap => ∀ r ∈ ranges, SourceLabelled db path cap r)
      fun cap k => ranges.countP fun r =>
        Hit cap path r ∧ labelledKey db label cap = some k := by
  have hnested := Steps.Tallies.nested Tabled (fun edges => ⟨edges, some 10⟩)
    EdgeState.edges (fun _ => ranges) (@fullGraphStep_tallies db path label)
    (fun _ _ _ h => h.counts _) (fun _ _ _ h => h.edges)
  simp only [Steps.sum_map_ite] at hnested
  exact hnested

/-- The query for the path is answered, its node gets a label, and so does
every source that is needed. -/
def Labelled (q : Quoted) (db : Db) (path : Text) : Prop :=
  ∃ ranges, rowsLike q db path = some ranges ∧
    (pathLabel path ranges).isSome ∧
    ∀ cap ∈ db.capInfo, ∀ r ∈ ranges, SourceLabelled db path cap r

theorem fullGraphPath_tallies :
    Steps.Tallies (fullGraphPath q db) (fun g n => Tabled g.edges n)
      (Labelled q db) fun path k =>
        (db.capInfo.flatMap fun cap =>
          (rangesOf q db path).map (Triple.mk path cap)).countP
            (Triple.Passes q db · k) := by
  constructor
  · rintro g n path hg ⟨ranges, hranges, hlabel, hsources⟩
    obtain ⟨label, hlabel⟩ := Option.isSome_iff_exists.mp hlabel
    obtain ⟨edges, hrun, htabled⟩ :=
      (fullGraphCap_tallies path label ranges).run.taken g.edges n db.capInfo
        hg hsources
    refine ⟨⟨g.nodes ++ [pathNode path label], edges⟩, ?_, ?_⟩
    · simp only [fullGraphPath, hranges, Option.bind_eq_bind,
        Option.bind_some, hlabel, hrun]
    · have hkey : ∀ cap, fullGraphKey q db path cap =
          labelledKey db label cap := by
        intro cap
        rw [fullGraphKey, rangesOf_eq hranges, hlabel]
        cases hsrc : capPathLabel db cap.capLocPath <;>
          simp [labelledKey, hsrc]
      simp only [List.countP_flatMap, Function.comp_def, List.countP_map,
        Triple.Passes, hkey, rangesOf_eq hranges]
      exact htabled
  · intro g n path hg hok
    rcases hranges : rowsLike q db path with - | ranges
    · simp only [fullGraphPath, hranges, Option.bind_eq_bind,
        Option.bind_none]
    · rcases hlabel : pathLabel path ranges with - | label
      · simp only [fullGraphPath, hranges, Option.bind_eq_bind,
          Option.bind_some, hlabel, Option.bind_none]
      · have hsources : ¬ ∀ cap ∈ db.capInfo, ∀ r ∈ ranges,
            SourceLabelled db path cap r := fun hsources =>
          hok ⟨ranges, hranges, by rw [hlabel]; rfl, hsources⟩
        simp only [fullGraphPath, hranges, Option.bind_eq_bind,
          Option.bind_some, hlabel, (fullGraphCap_tallies path label
            ranges).run.refused g.edges n db.capInfo hg hsources,
          Option.bind_none]

theorem tabled_nil : Tabled [] fun _ => 0 := edgeMap_nil

/-- What `gen_full_graph` returns. -/
theorem genFullGraph_spec (q : Quoted) (db : Db) :
    ((∀ path ∈ fullGraphPaths db, Labelled q db path) →
      ∃ g, genFullGraph q db = some g ∧
        EdgeTable g.edges (fullGraphCount q db)) ∧
    ((¬ ∀ path ∈ fullGraphPaths db, Labelled q db path) →
      genFullGraph q db = none) := by
  have htallies := (@fullGraphPath_tallies q db).run
  constructor
  · intro hlabelled
    obtain ⟨g, hg, htabled⟩ := htallies.taken ⟨[], []⟩ (fun _ => 0)
      (fullGraphPaths db) tabled_nil hlabelled
    refine ⟨g, hg, ?_⟩
    rw [edgeTable_iff]
    simp only [zero_add] at htabled
    simp only [fullGraphCount, fullGraphTriples, List.countP_flatMap,
      Function.comp_def] at htabled ⊢
    exact htabled
  · exact htallies.refused ⟨[], []⟩ (fun _ => 0) (fullGraphPaths db) tabled_nil

/-- What is known of a graph that has been drawn. -/
theorem genFullGraph_edgeTable {g : Graph}
    (hg : genFullGraph q db = some g) :
    (∀ path ∈ fullGraphPaths db, Labelled q db path) ∧
      EdgeTable g.edges (fullGraphCount q db) := by
  have hspec := genFullGraph_spec q db
  by_cases hlabelled : ∀ path ∈ fullGraphPaths db, Labelled q db path
  · obtain ⟨g', hg', htable⟩ := hspec.1 hlabelled
    cases hg.symm.trans hg'
    exact ⟨hlabelled, htable⟩
  · rw [hspec.2 hlabelled] at hg
    cases hg

/-! ### Every step -/

section Shown

variable (q : Quoted) (db : Db)

/-- The edges when one of them has been taken out to be added again. -/
def FullGraphStepShows (path label : Text) (cap : CapInfo) (s : EdgeState)
    (range : VmInfo) (edges : List Edge) : Prop :=
  Hit cap path range ∧ ∃ src, capPathLabel db cap.capLocPath = some src ∧
    edges = (s.strengthen src label cap.perms).edges

def FullGraphCapShows (path label : Text) (ranges : List VmInfo)
    (edges : List Edge) (cap : CapInfo) : List Edge → Prop :=
  Steps.Shows EdgeState.edges (FullGraphStepShows db path label cap)
    (fullGraphStep db path label cap) ⟨edges, some 10⟩ ranges

def FullGraphPathShows (g : Graph) (path : Text) (edges : List Edge) : Prop :=
  ∃ ranges label, rowsLike q db path = some ranges ∧
    pathLabel path ranges = some label ∧
    Steps.Shows id (FullGraphCapShows db path label ranges)
      (fullGraphCap db path label ranges) g.edges db.capInfo edges

/-- The edges at some step of `gen_full_graph`. -/
def FullGraphShows : List Edge → Prop :=
  Steps.Shows Graph.edges (FullGraphPathShows q db) (fullGraphPath q db)
    ⟨[], []⟩ (fullGraphPaths db)

end Shown

theorem Tabled.onePerKey {edges : List Edge} {n : EdgeKey → Nat}
    (h : Tabled edges n) : OnePerKey edges :=
  EdgeMap.onePerKey h

theorem FullGraphShows.onePerKey {edges : List Edge}
    (h : FullGraphShows q db edges) : OnePerKey edges := by
  refine fullGraphPath_tallies.shows tabled_nil (fun _ _ => Tabled.onePerKey)
    ?_ h
  rintro g n path t _ hg ⟨ranges, label, _, _, hcaps⟩
  refine (fullGraphCap_tallies path label ranges).shows hg
    (fun _ _ => Tabled.onePerKey) ?_ hcaps
  intro edges m cap t _ hedges hranges
  refine (fullGraphStep_tallies path label cap).shows (hedges.counts _)
    (fun _ _ hs => hs.edges.onePerKey) ?_ hranges
  rintro s l range t _ hs ⟨_, src, _, rfl⟩
  exact (hs.edges.strengthen src label cap.perms).2.onePerKey

/-! ### Labels that can be looked up -/

theorem not_quoted_of_isRegion {path : Text} (h : isRegion path = true) :
    apostrophe ∉ path := by
  simp only [isRegion, Bool.or_eq_true, decide_eq_true_eq] at h
  rcases h with (rfl | rfl) | rfl <;> decide

/-- The rows that a region's name selects. -/
theorem rangesOf_region {path : Text} (h : isRegion path = true) :
    rangesOf q db path =
      db.vm.filter fun v => like (within path) v.mmapPath :=
  rangesOf_eq (by rw [rowsLike, if_neg (not_quoted_of_isRegion h)])

theorem pathLabel_isSome {v : VmInfo} (hv : v ∈ db.vm) :
    (pathLabel v.mmapPath (rangesOf q db v.mmapPath)).isSome := by
  rw [pathLabel]
  split
  · next hregion =>
      have hself : v ∈ db.vm.filter fun u =>
          like (within v.mmapPath) u.mmapPath :=
        List.mem_filter.mpr ⟨hv, like_within_self _⟩
      rw [rangesOf_region hregion, Option.isSome_map, List.isSome_head?]
      exact List.ne_nil_of_mem hself
  · rfl

theorem capPathLabel_isSome {v : VmInfo} (hv : v ∈ db.vm) :
    (capPathLabel db v.mmapPath).isSome := by
  rw [capPathLabel]
  split
  · rw [Option.isSome_map, List.find?_isSome]
    exact ⟨v, hv, decide_eq_true rfl⟩
  · rfl

theorem mem_fullGraphPaths {path : Text} :
    path ∈ fullGraphPaths db ↔ ∃ v ∈ db.vm, v.mmapPath = path := by
  rw [fullGraphPaths, List.mem_eraseDups, List.mem_map]

/-- The graph can be drawn as soon as all queries are answered, if each
capability is stored in some block. -/
theorem labelled_iff (hlocated : ∀ cap ∈ db.capInfo,
      ∃ v ∈ db.vm, v.mmapPath = cap.capLocPath) :
    (∀ path ∈ fullGraphPaths db, Labelled q db path) ↔
      ∀ v ∈ db.vm, (rowsLike q db v.mmapPath).isSome := by
  constructor
  · intro h v hv
    obtain ⟨ranges, hranges, _⟩ := h v.mmapPath
      (mem_fullGraphPaths.mpr ⟨v, hv, rfl⟩)
    rw [hranges]
    rfl
  · intro h path hpath
    obtain ⟨v, hv, rfl⟩ := mem_fullGraphPaths.mp hpath
    obtain ⟨ranges, hranges⟩ := Option.isSome_iff_exists.mp (h v hv)
    refine ⟨ranges, hranges, ?_, fun cap hcap _ _ _ => ?_⟩
    · rw [← rangesOf_eq hranges]
      exact pathLabel_isSome hv
    · obtain ⟨u, hu, hpath⟩ := hlocated cap hcap
      rw [← hpath]
      exact capPathLabel_isSome hu

/-! ### Paths without quotes -/

theorem PlainTables.labelled (h : PlainTables db) :
    ∀ path ∈ fullGraphPaths db, Labelled q db path := by
  rw [labelled_iff h.located]
  intro v hv
  rw [rowsLike, if_neg (h.quotes v hv)]
  rfl

theorem PlainTables.of_perm {db' : Db} (h : PlainTables db)
    (hvm : db'.vm = db.vm) (hcaps : db'.capInfo.Perm db.capInfo) :
    PlainTables db' := by
  refine ⟨fun cap hcap => ?_, ?_⟩
  · rw [hvm]
    exact h.located cap (hcaps.mem_iff.mp hcap)
  · rw [hvm]
    exact h.quotes

/-- The full graph never has two edges with one key.  In the end there is an
edge for each key of a triple that passes the tests, it weighs how many these
are, and the order of the capabilities does not matter. -/
theorem fullGraph_edgeTable (q : Quoted) {db : Db} (h : PlainTables db) :
    (∀ edges, FullGraphShows q db edges → OnePerKey edges) ∧
    ∃ g, genFullGraph q db = some g ∧
      EdgeTable g.edges (fullGraphCount q db) ∧
      ∀ db', db'.vm = db.vm → db'.capInfo.Perm db.capInfo →
        ∃ g', genFullGraph q db' = some g' ∧ g'.edges.Perm g.edges := by
  obtain ⟨g, hg, htable⟩ := (genFullGraph_spec q db).1 h.labelled
  refine ⟨fun _ hshown => hshown.onePerKey, g, hg, htable, ?_⟩
  intro db' hvm hcaps
  obtain ⟨g', hg', htable'⟩ :=
    (genFullGraph_spec q db').1 (h.of_perm hvm hcaps).labelled
  refine ⟨g', hg', ?_⟩
  rw [fullGraphCount_perm hvm hcaps] at htable'
  exact (edgeTable_iff.mp htable').perm (edgeTable_iff.mp htable)

/-- Two capabilities on the stack: the edge is taken out and put back. -/
theorem fullGraph_of_ls :
    (∃ g, genFullGraph noQuotes (dbAfter lsTwiceTarget Db.empty) = some g ∧
      EdgeTable g.edges
        (fullGraphCount noQuotes (dbAfter lsTwiceTarget Db.empty))) ∧
    fullGraphCount noQuotes (dbAfter lsTwiceTarget Db.empty)
      ("Stack (0x7f000)".toList, lsPath, "rwRW".toList) = 2 := by
  have hplain : PlainTables (dbAfter lsTwiceTarget Db.empty) :=
    ⟨by decide +kernel, by decide +kernel⟩
  obtain ⟨_, g, hg, htable, _⟩ := fullGraph_edgeTable noQuotes hplain
  exact ⟨⟨g, hg, htable⟩, by decide +kernel⟩

end Chericat
