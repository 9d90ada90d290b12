import Chericat.CapPaths
import Chericat.FullGraph

/-!
The graph of the compartments: an edge counts the matches between the
capabilities of one compartment and the block ranges that the paths of another
one select.
-/

namespace Chericat

open Numeral SqlLike

/-! ### What an edge counts -/

section Counting

variable (q : Quoted) (db : Db)

def compartIds : List Int := (db.vm.map (·.compartId)).eraseDups

/-- What the loops look at together. -/
structure CompartMatch where
  compartId : Int
  path : Text
  cap : CapInfo
  range : VmInfo

def compartMatches : List CompartMatch :=
  (compartIds db).flatMap fun id => (compartPaths db id).flatMap fun path =>
    db.capInfo.flatMap fun cap =>
      (rangesOf q db path).map (⟨id, path, cap, ·⟩)

/-- The key of the edge from the capability's compartment to another one. -/
def compartKey (compartId : Int) (cap : CapInfo) : Option EdgeKey :=
  (compartOf q db cap.capLocPath).bind fun i =>
    if i = compartId then none
    else some (decText i, decText compartId, cap.perms)

/-- The match passes the tests and has the key. -/
def CompartMatch.Passes (m : CompartMatch) (k : EdgeKey) : Prop :=
  Hit m.cap m.path m.range ∧ compartKey q db m.compartId m.cap = some k

instance (m : CompartMatch) (k : EdgeKey) : Decidable (m.Passes q db k) :=
  inferInstanceAs (Decidable (_ ∧ _))

def compartCount (k : EdgeKey) : Nat :=
  (compartMatches q db).countP (CompartMatch.Passes q db · k)

end Counting

variable {q : Quoted} {db : Db}

theorem mem_compartMatches {m : CompartMatch} :
    m ∈ compartMatches q db ↔ m.compartId ∈ compartIds db ∧
      m.path ∈ compartPaths db m.compartId ∧ m.cap ∈ db.capInfo ∧
      m.range ∈ rangesOf q db m.path := by
  simp only [compartMatches, List.mem_flatMap, List.mem_map]
  constructor
  · rintro ⟨id, hid, path, hpath, cap, hcap, range, hrange, rfl⟩
    exact ⟨hid, hpath, hcap, hrange⟩
  · rintro ⟨hid, hpath, hcap, hrange⟩
    exact ⟨m.compartId, hid, m.path, hpath, m.cap, hcap, m.range, hrange, rfl⟩

theorem compartCount_pos_iff {k : EdgeKey} :
    0 < compartCount q db k ↔
      ∃ m ∈ compartMatches q db, m.Passes q db k := by
  simp [compartCount, List.countP_pos_iff]

theorem compartKey_eq_some_iff {compartId : Int} {cap : CapInfo}
    {k : EdgeKey} : compartKey q db compartId cap = some k ↔
      ∃ i, compartOf q db cap.capLocPath = some i ∧ i ≠ compartId ∧
        (decText i, decText compartId, cap.perms) = k := by
  simp only [compartKey, Option.bind_eq_some_iff]
  refine exists_congr fun i => and_congr_right fun _ => ?_
  by_cases hi : i = compartId <;> simp [hi]

theorem compartMatch_passes_iff {m : CompartMatch} {a b : Int}
    {perms : Text} : m.Passes q db (decText a, decText b, perms) ↔
      Hit m.cap m.path m.range ∧
        compartOf q db m.cap.capLocPath = some a ∧ m.compartId = b ∧
        a ≠ b ∧ m.cap.perms = perms := by
  rw [CompartMatch.Passes, compartKey_eq_some_iff]
  refine and_congr_right fun _ => ⟨?_, ?_⟩
  · rintro ⟨i, hi, hne, hk⟩
    simp only [Prod.mk.injEq] at hk
    cases decText_injective hk.1
    cases decText_injective hk.2.1
    exact ⟨hi, rfl, hne, hk.2.2⟩
  · rintro ⟨ha, rfl, hne, rfl⟩
    exact ⟨a, ha, hne, rfl⟩

/-! ### The loops -/

/-- A list of edges without loops stands for the numbers it is the table of. -/
structure TabledLoopFree (edges : List Edge) (n : EdgeKey → Nat) : Prop where
  tabled : Tabled edges n
  loops : ∀ x label, n (x, x, label) = 0

theorem TabledLoopFree.loopFree {edges : List Edge} {n : EdgeKey → Nat}
    (h : TabledLoopFree edges n) : LoopFree edges := by
  intro e he hends
  obtain ⟨w, _, hw⟩ := (h.tabled.mem_iff e).mp he
  rw [Edge.key, hends, h.loops, widthOf, if_pos rfl] at hw
  cases hw

/-- The same in the loop over the ranges for one capability. -/
structure EdgeState.CountsLoopFree (key : Option EdgeKey) (s : EdgeState)
    (n : EdgeKey → Nat) : Prop where
  counts : s.Counts key n
  loops : ∀ x label, n (x, x, label) = 0

/-- Nothing is found for an edge that would be a loop. -/
theorem EdgeState.CountsLoopFree.strengthen {s : EdgeState}
    {n : EdgeKey → Nat} (h : s.CountsLoopFree none n) (x label : Text) :
    (s.strengthen x x label).CountsLoopFree none n := by
  have hnone : widthOf (n (x, x, label)) = none := by
    rw [h.loops, widthOf, if_pos rfl]
  obtain ⟨_, hmap⟩ := h.counts.edges.strengthen x x label
  rw [← hnone, Function.update_eq_self] at hmap
  exact ⟨⟨hmap, fun k hk => absurd hk (Option.not_mem_none k)⟩, h.loops⟩

/-- An edge between different compartments is drawn. -/
theorem EdgeState.CountsLoopFree.draw {s : EdgeState} {n : EdgeKey → Nat}
    {src dest label : Text}
    (h : s.CountsLoopFree (some (src, dest, label)) n) (hne : src ≠ dest) :
    ∃ s', (s.strengthen src dest label).append src dest label = some s' ∧
      s'.CountsLoopFree (some (src, dest, label))
        fun k => n k + once (some (src, dest, label)) k := by
  obtain ⟨s', hs', _, hcounts⟩ := h.counts.draw
  refine ⟨s', hs', hcounts, fun x y => ?_⟩
  rw [h.loops, once, if_neg]
  simp only [Option.some.injEq, Prod.mk.injEq, not_and]
  exact fun hx hx' => absurd (hx.trans hx'.symm) hne

theorem compartEdgeStep_tallies (compartId : Int) (path : Text)
    (cap : CapInfo) :
    Steps.Tallies (compartEdgeStep q db compartId path cap)
      (EdgeState.CountsLoopFree (compartKey q db compartId cap))
      (SourceFound q db path cap)
      fun range k =>
        if Hit cap path range ∧ compartKey q db compartId cap = some k
        then 1 else 0 := by
  constructor
  · intro s n range hs hok
    by_cases hhit : Hit cap path range
    · obtain ⟨i, hi⟩ := hok hhit
      simp only [compartEdgeStep, if_pos (hit_iff.mpr hhit), hi,
        Option.bind_eq_bind, Option.bind_some]
      by_cases hsame : i = compartId
      · subst hsame
        have hkey : compartKey q db i cap = none := by simp [compartKey, hi]
        rw [hkey] at hs ⊢
        refine ⟨s.strengthen (decText i) (decText i) cap.perms, by simp, ?_⟩
        simpa using hs.strengthen (decText i) cap.perms
      · have hkey : compartKey q db compartId cap =
            some (decText i, decText compartId, cap.perms) := by
          simp [compartKey, hi, hsame]
        have hne : decText i ≠ decText compartId :=
          fun h => hsame (decText_injective h)
        rw [hkey] at hs ⊢
        obtain ⟨s', hs', hcounts⟩ := hs.draw hne
        refine ⟨s', by rw [if_pos hne, hs'], ?_⟩
        simpa only [hhit, true_and, once] using hcounts
    · refine ⟨s, ?_, ?_⟩
      · rw [compartEdgeStep, if_neg (mt hit_iff.mp hhit)]
      · simpa only [hhit, false_and, if_false, add_zero] using hs
  · intro s n range _ hok
    obtain ⟨hhit, hnone⟩ := hit_of_not_sourceFound hok
    rw [compartEdgeStep, if_pos (hit_iff.mpr hhit), hnone]
    rfl

theorem compartCap_tallies (compartId : Int) (path : Text)
    (ranges : List VmInfo) :
    Steps.Tallies (compartCap q db compartId path ranges) TabledLoopFree
      (fun cap => ∀ r ∈ ranges, SourceFound q db path cap r)
      fun cap k => ranges.countP fun r =>
        Hit cap path r ∧ compartKey q db compartId cap = some k := by
  have hnested := Steps.Tallies.nested TabledLoopFree
    (fun edges => ⟨edges, some 10⟩) EdgeState.edges (fun _ => ranges)
    (@compartEdgeStep_tallies q db compartId path)
    (fun _ _ _ h => ⟨h.tabled.counts _, h.loops⟩)
    (fun _ _ _ h => ⟨h.counts.edges, h.loops⟩)
  simp only [Steps.sum_map_ite] at hnested
  exact hnested

theorem compartPath_tallies (compartId : Int) :
    Steps.Tallies (compartPath q db compartId) TabledLoopFree (Searched q db)
      fun path k => (db.capInfo.flatMap fun cap =>
        (rangesOf q db path).map (CompartMatch.mk compartId path cap)).countP
          (CompartMatch.Passes q db · k) := by
  constructor
  · rintro edges n path hs ⟨ranges, hranges, hfound⟩
    obtain ⟨edges', hrun, htabled⟩ :=
      (compartCap_tallies compartId path ranges).run.taken edges n db.capInfo
        hs hfound
    refine ⟨edges', ?_, ?_⟩
    · rw [compartPath, hranges]
      exact hrun
    · simp only [List.countP_flatMap, Function.comp_def, List.countP_map,
        CompartMatch.Passes, rangesOf_eq hranges]
      exact htabled
  · intro edges n path hs hok
    rcases hranges : rowsLike q db path with - | ranges
    · rw [compartPath, hranges]
      rfl
    · rw [compartPath, hranges]
      refine (compartCap_tallies compartId path ranges).run.refused edges n
        db.capInfo hs fun hfound => hok ⟨ranges, hranges, hfound⟩

theorem compartEdges_tallies :
    Steps.Tallies (compartEdges q db) TabledLoopFree
      (fun id => ∀ path ∈ compartPaths db id, Searched q db path)
      fun id k => ((compartPaths db id).flatMap fun path =>
        db.capInfo.flatMap fun cap =>
          (rangesOf q db path).map (CompartMatch.mk id path cap)).countP
            (CompartMatch.Passes q db · k) := by
  have hnested := Steps.Tallies.nested TabledLoopFree id id
    (compartPaths db) (@compartPath_tallies q db) (fun _ _ _ h => h)
    (fun _ _ _ h => h)
  simp only [Option.map_id, id] at hnested
  simp only [List.countP_flatMap, Function.comp_def] at hnested ⊢
  exact hnested

theorem tabledLoopFree_nil : TabledLoopFree [] fun _ => 0 :=
  ⟨tabled_nil, fun _ _ => rfl⟩

/-- What `show_comparts` returns, with the weights of the edges. -/
theorem showComparts_weights (q : Quoted) (db : Db) :
    (AllSearched q db (fun path => path) → ∃ g, showComparts q db = some g ∧
      EdgeTable g.edges (compartCount q db) ∧ LoopFree g.edges ∧
      g.nodes.map Node.id = (compartIds db).map decText) ∧
    (¬ AllSearched q db (fun path => path) → showComparts q db = none) := by
  refine ⟨fun hsearched => ?_, showComparts_spec.2⟩
  obtain ⟨edges, hrun, htabled⟩ := (@compartEdges_tallies q db).run.taken []
    (fun _ => 0) (compartIds db) tabledLoopFree_nil
    (searched_iff_allSearched.mpr hsearched)
  refine ⟨_, by rw [showComparts, ← compartIds, hrun]; rfl, ?_,
    htabled.loopFree, ?_⟩
  · rw [edgeTable_iff]
    have hcount := htabled.tabled
    simp only [zero_add] at hcount
    simp only [compartCount, compartMatches, List.countP_flatMap,
      Function.comp_def] at hcount ⊢
    exact hcount
  · simp [compartNode]

/-- What is known of a graph that has been drawn. -/
theorem showComparts_edgeTable {g : Graph}
    (hg : showComparts q db = some g) :
    AllSearched q db (fun path => path) ∧
      EdgeTable g.edges (compartCount q db) ∧ LoopFree g.edges := by
  have hspec := showComparts_weights q db
  by_cases hsearched : AllSearched q db fun path => path
  · obtain ⟨g', hg', htable, hloops, _⟩ := hspec.1 hsearched
    cases hg.symm.trans hg'
    exact ⟨hsearched, htable, hloops⟩
  · rw [hspec.2 hsearched] at hg
    cases hg

/-! ### Every step -/

section Shown

variable (q : Quoted) (db : Db)

/-- The edges when one of them has been taken out. -/
def CompartStepShows (compartId : Int) (path : Text) (cap : CapInfo)
    (s : EdgeState) (range : VmInfo) (edges : List Edge) : Prop :=
  Hit cap path range ∧ ∃ i, compartOf q db cap.capLocPath = some i ∧
    edges = (s.strengthen (decText i) (decText compartId) cap.perms).edges

def CompartCapShows (compartId : Int) (path : Text) (ranges : List VmInfo)
    (edges : List Edge) (cap : CapInfo) : List Edge → Prop :=
  Steps.Shows EdgeState.edges (CompartStepShows q db compartId path cap)
    (compartEdgeStep q db compartId path cap) ⟨edges, some 10⟩ ranges

def CompartPathShows (compartId : Int) (edges : List Edge) (path : Text)
    (shown : List Edge) : Prop :=
  ∃ ranges, rowsLike q db path = some ranges ∧
    Steps.Shows id (CompartCapShows q db compartId path ranges)
      (compartCap q db compartId path ranges) edges db.capInfo shown

def CompartEdgesShows (edges : List Edge) (compartId : Int) :
    List Edge → Prop :=
  Steps.Shows id (CompartPathShows q db compartId)
    (compartPath q db compartId) edges (compartPaths db compartId)

/-- The edges at some step of `show_comparts`. -/
def CompartsShow : List Edge → Prop :=
  Steps.Shows id (CompartEdgesShows q db) (compartEdges q db) []
    (compartIds db)

end Shown

/-- No edge is a loop, and no two have one key. -/
structure SimpleEdges (edges : List Edge) : Prop where
  onePerKey : OnePerKey edges
  loopFree : LoopFree edges

theorem TabledLoopFree.simple {edges : List Edge} {n : EdgeKey → Nat}
    (h : TabledLoopFree edges n) : SimpleEdges edges :=
  ⟨h.tabled.onePerKey, h.loopFree⟩

theorem EdgeState.CountsLoopFree.simple {key : Option EdgeKey}
    {s : EdgeState} {n : EdgeKey → Nat} (h : s.CountsLoopFree key n) :
    SimpleEdges s.edges :=
  (TabledLoopFree.mk h.counts.edges h.loops).simple

theorem EdgeState.strengthen_subset (s : EdgeState) (src dest label : Text) :
    (s.strengthen src dest label).edges ⊆ s.edges := by
  rw [strengthen]
  split
  · exact List.erase_subset
  · exact List.Subset.refl _

theorem CompartsShow.simple {edges : List Edge}
    (h : CompartsShow q db edges) : SimpleEdges edges := by
  refine compartEdges_tallies.shows tabledLoopFree_nil
    (fun _ _ => TabledLoopFree.simple) ?_ h
  intro edges n compartId t _ hedges hpaths
  refine (compartPath_tallies compartId).shows hedges
    (fun _ _ => TabledLoopFree.simple) ?_ hpaths
  rintro edges n path t _ hedges ⟨ranges, _, hcaps⟩
  refine (compartCap_tallies compartId path ranges).shows hedges
    (fun _ _ => TabledLoopFree.simple) ?_ hcaps
  intro edges n cap t _ hedges hranges
  refine (compartEdgeStep_tallies compartId path cap).shows
    ⟨hedges.tabled.counts _, hedges.loops⟩
    (fun _ _ => EdgeState.CountsLoopFree.simple) ?_ hranges
  rintro s m range t _ hs ⟨_, i, _, rfl⟩
  refine ⟨(hs.counts.edges.strengthen _ _ cap.perms).2.onePerKey, ?_⟩
  intro e he
  exact hs.simple.loopFree e (s.strengthen_subset _ _ _ he)

/-! ### Paths without quotes -/

theorem plainTables_of_scan {t : Target} (hclean : t.Clean)
    (hscan : (scanMem t).outcome = .ok ⟨⟩)
    (hquotes : ∀ v ∈ (dbScanned t Db.empty).vm, apostrophe ∉ v.mmapPath) :
    PlainTables (dbScanned t Db.empty) :=
  ⟨scan_located hclean hscan, hquotes⟩

/-- The path of a capability selects the block it is stored in. -/
theorem PlainTables.rowsLike_ne_nil (h : PlainTables db) {cap : CapInfo}
    (hcap : cap ∈ db.capInfo) :
    ∃ rows, rowsLike q db cap.capLocPath = some rows ∧ rows ≠ [] := by
  obtain ⟨i, hi⟩ := h.compartOf_eq_some (q := q) hcap
  obtain ⟨rows, hrows, hhead⟩ := Option.bind_eq_some_iff.mp hi
  refine ⟨rows, hrows, ?_⟩
  rintro rfl
  cases hhead

/-- What is found for the source is the compartment of a block. -/
theorem PlainTables.compartOf_mem (h : PlainTables db) {cap : CapInfo}
    (hcap : cap ∈ db.capInfo) {i : Int}
    (hi : compartOf q db cap.capLocPath = some i) : i ∈ compartIds db := by
  obtain ⟨v, hv, hpath⟩ := h.located cap hcap
  rw [compartOf, ← hpath, rowsLike, if_neg (h.quotes v hv)] at hi
  simp only [Option.bind_eq_bind, Option.bind_some,
    Option.map_eq_some_iff] at hi
  obtain ⟨r, hr, rfl⟩ := hi
  rw [compartIds, List.mem_eraseDups]
  exact List.mem_map_of_mem (List.mem_of_mem_filter (List.mem_of_mem_head? hr))

theorem PlainTables.comparts_closed (h : PlainTables db) {g : Graph}
    (htable : EdgeTable g.edges (compartCount q db))
    (hnodes : g.nodes.map Node.id = (compartIds db).map decText) :
    g.Closed := by
  have hdeclared : ∀ i ∈ compartIds db, ∃ n ∈ g.nodes, n.id = decText i := by
    intro i hi
    rw [← List.mem_map, hnodes]
    exact List.mem_map_of_mem hi
  intro e he
  obtain ⟨m, hm, _, hkey⟩ := compartCount_pos_iff.mp
    ((htable.drawn e.key).mp ⟨e, he, rfl⟩)
  obtain ⟨i, hi, _, hends⟩ := compartKey_eq_some_iff.mp hkey
  obtain ⟨hid, _, hcap, _⟩ := mem_compartMatches.mp hm
  simp only [Edge.key, Prod.mk.injEq] at hends
  rw [← hends.1, ← hends.2.1]
  exact ⟨hdeclared i (h.compartOf_mem hcap hi), hdeclared _ hid⟩

/-- The graph of the compartments can be drawn when no path holds a quote and
every capability is stored in a block: its edges lead from compartments to
other ones, and there are never two with one key. -/
theorem compartGraph_closed (q : Quoted) {db : Db} (h : PlainTables db) :
    (∀ path, like (within path) path = true) ∧
    (∀ cap ∈ db.capInfo,
      ∃ rows, rowsLike q db cap.capLocPath = some rows ∧ rows ≠ []) ∧
    (∀ edges, CompartsShow q db edges → SimpleEdges edges) ∧
    ∃ g, showComparts q db = some g ∧ g.Closed ∧ SimpleEdges g.edges := by
  refine ⟨like_within_self, fun _ => h.rowsLike_ne_nil,
    fun _ => CompartsShow.simple, ?_⟩
  obtain ⟨g, hg, htable, hloops, hnodes⟩ := (showComparts_weights q db).1
    (h.allSearched fun path => List.Subset.refl path)
  exact ⟨g, hg, h.comparts_closed htable hnodes, htable.onePerKey, hloops⟩

/-- Two capabilities on the stack: the edge is taken out and put back. -/
theorem compartGraph_of_ls_closed :
    ∃ g, showComparts noQuotes (dbAfter lsTwiceTarget Db.empty) = some g ∧
      g.Closed ∧ SimpleEdges g.edges ∧
      g.edges = [⟨decText (-1), decText 1, "rwRW".toList, some 11⟩] := by
  have hplain : PlainTables (dbAfter lsTwiceTarget Db.empty) :=
    ⟨by decide +kernel, by decide +kernel⟩
  obtain ⟨_, _, _, g, hg, hclosed, hsimple⟩ :=
    compartGraph_closed noQuotes hplain
  have hedges : (showComparts noQuotes (dbAfter lsTwiceTarget Db.empty)).map
      Graph.edges =
        some [⟨decText (-1), decText 1, "rwRW".toList, some 11⟩] := by
    decide +kernel
  rw [hg, Option.map_some, Option.some.injEq] at hedges
  exact ⟨g, hg, hclosed, hsimple, hedges⟩

end Chericat
