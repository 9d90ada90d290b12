import Chericat.SplitLibraries

/-!
The graph of the compartments against the graph of all libraries.  Its edges
stand for the sums over the edges between the paths of two compartments, while
edges inside of a compartment are left out.
-/

namespace Chericat

open Numeral SqlLike

/-! ### What the edges of a graph stand for -/

/-- The number that the pen width shows. -/
def Edge.count (e : Edge) : Nat := e.penwidth.getD 0 - 9

/-- The number shown by the edge with this key, if there is one. -/
def edgeCount (edges : List Edge) (k : EdgeKey) : Nat :=
  ((edges.find? fun e => e.key = k).map Edge.count).getD 0

def Graph.count (g : Graph) (k : EdgeKey) : Nat := edgeCount g.edges k

theorem EdgeTable.graph_count {g : Graph} {n : EdgeKey → Nat}
    (h : EdgeTable g.edges n) (k : EdgeKey) : g.count k = n k := by
  rw [Graph.count, edgeCount]
  cases hfind : g.edges.find? fun e => e.key = k with
  | none =>
      have hnone : ¬ ∃ e ∈ g.edges, e.key = k := by
        rintro ⟨e, he, hk⟩
        have hne := List.find?_eq_none.1 hfind e he
        simp [hk] at hne
      rw [h.drawn k, Nat.pos_iff_ne_zero, not_not] at hnone
      rw [hnone]
      rfl
  | some e =>
      have hmem := List.mem_of_find?_eq_some hfind
      have hkey : e.key = k := by simpa using List.find?_some hfind
      have hweighs := Edge.weighs_iff.1 (h.weighs e hmem)
      rw [hkey] at hweighs
      simp [Edge.count, hweighs]

theorem EdgeTable.drawn_iff_count {g : Graph} {n : EdgeKey → Nat}
    (h : EdgeTable g.edges n) (k : EdgeKey) :
    (∃ e ∈ g.edges, e.key = k) ↔ 0 < g.count k := by
  rw [h.drawn, h.graph_count]

/-! ### Paths and their labels -/

/-- The path is not the label of a region. -/
def NoLabel (path : Text) : Prop :=
  ∀ region addr, isRegion region = true → path ≠ regionLabel region addr

section Paths

variable (q : Quoted) (db : Db)

/-- The paths under which capabilities are stored. -/
def sourcePaths : List Text := (db.capInfo.map (·.capLocPath)).eraseDups

/-- The paths with capabilities that belong to a compartment. -/
def compartSources (id : Int) : List Text :=
  (sourcePaths db).filter fun src => compartOf q db src = some id

/-- The key of the edge of the full graph between two paths. -/
def pathKey (src dest perms : Text) : Option EdgeKey := do
  let srcLabel ← capPathLabel db src
  let destLabel ← pathLabel dest (rangesOf q db dest)
  some (srcLabel, destLabel, perms)

/-- How often a capability stored under the one path, with these permissions,
points into a range of the other. -/
def pathMatches (src dest perms : Text) : Nat :=
  (db.capInfo.map fun cap =>
    if cap.capLocPath = src ∧ cap.perms = perms then
      (rangesOf q db dest).countP fun r => Hit cap dest r
    else 0).sum

/-- No path is the label of a region. -/
structure NoLabelNames : Prop where
  vm : ∀ v ∈ db.vm, NoLabel v.mmapPath
  capInfo : ∀ cap ∈ db.capInfo, NoLabel cap.capLocPath

end Paths

/-- The label of a path: for a region with an address, and else the path. -/
def LabelOf (path label : Text) : Prop :=
  if isRegion path then ∃ addr, label = regionLabel path addr else label = path

variable {q : Quoted} {db : Db}

theorem labelOf_pathLabel {path label : Text} {ranges : List VmInfo}
    (h : pathLabel path ranges = some label) : LabelOf path label := by
  rw [pathLabel] at h
  rw [LabelOf]
  split at h
  · next hregion =>
      rw [if_pos hregion]
      obtain ⟨v, _, rfl⟩ := Option.map_eq_some_iff.1 h
      exact ⟨v.startAddr, rfl⟩
  · next hregion =>
      rw [if_neg hregion]
      exact (Option.some.inj h).symm

theorem labelOf_capPathLabel {path label : Text}
    (h : capPathLabel db path = some label) : LabelOf path label := by
  rw [capPathLabel] at h
  rw [LabelOf]
  split at h
  · next hregion =>
      rw [if_pos hregion]
      obtain ⟨v, _, rfl⟩ := Option.map_eq_some_iff.1 h
      exact ⟨v.startAddr, rfl⟩
  · next hregion =>
      rw [if_neg hregion]
      exact (Option.some.inj h).symm

/-- The words that stand for regions. -/
def regionNames : List Text :=
  ["unknown".toList, "Stack".toList, "Guard".toList]

theorem isRegion_iff {path : Text} :
    isRegion path = true ↔ path ∈ regionNames := by
  simp only [isRegion, regionNames, Bool.or_eq_true, decide_eq_true_eq,
    List.mem_cons, List.not_mem_nil, or_false, or_assoc]

theorem regionNames_head_inj : ∀ p ∈ regionNames, ∀ p' ∈ regionNames,
    p.head? = p'.head? → p = p' := by decide

theorem regionNames_ne_nil : ∀ p ∈ regionNames, p.head?.isSome := by decide

/-- The first letters tell the words apart. -/
theorem regionLabel_path_inj {path path' a a' : Text}
    (hpath : isRegion path = true) (hpath' : isRegion path' = true)
    (h : regionLabel path a = regionLabel path' a') : path = path' := by
  rw [isRegion_iff] at hpath hpath'
  have hfirst : ∀ p ∈ regionNames, ∀ a,
      (regionLabel p a).head? = p.head? := by
    intro p hp a
    obtain ⟨c, hc⟩ := Option.isSome_iff_exists.1 (regionNames_ne_nil p hp)
    rw [regionLabel, List.append_assoc, List.append_assoc, List.head?_append,
      hc]
    rfl
  refine regionNames_head_inj path hpath path' hpath' ?_
  rw [← hfirst path hpath a, ← hfirst path' hpath' a', h]

/-- A path that does not begin like a label is none. -/
theorem noLabel_of_heads {path : Text}
    (h : ∀ region ∈ regionNames, ¬ region ++ " (".toList <+: path) :
    NoLabel path := by
  intro region addr hregion heq
  refine h region (isRegion_iff.1 hregion) ?_
  rw [heq, regionLabel, List.append_assoc _ addr]
  exact List.prefix_append _ _

/-- Labels are told apart when no path looks like the label of a region. -/
theorem LabelOf.unique {path path' label : Text} (h : LabelOf path label)
    (h' : LabelOf path' label) (hname : NoLabel path)
    (hname' : NoLabel path') : path = path' := by
  rw [LabelOf] at h h'
  split at h <;> split at h'
  · next hregion hregion' =>
      obtain ⟨addr, rfl⟩ := h
      obtain ⟨addr', heq⟩ := h'
      exact regionLabel_path_inj hregion hregion' heq
  · next hregion _ =>
      obtain ⟨addr, rfl⟩ := h
      exact absurd h'.symm (hname' _ addr hregion)
  · next _ hregion' =>
      obtain ⟨addr, rfl⟩ := h'
      exact absurd h.symm (hname _ addr hregion')
  · exact h.symm.trans h'

theorem nodup_fullGraphPaths : (fullGraphPaths db).Nodup :=
  Steps.nodup_eraseDups _

theorem nodup_sourcePaths : (sourcePaths db).Nodup :=
  Steps.nodup_eraseDups _

/-! ### Both graphs from the same matches -/

variable {src dest perms : Text} {k : EdgeKey}

theorem mem_sourcePaths {path : Text} : path ∈ sourcePaths db ↔
    ∃ cap ∈ db.capInfo, cap.capLocPath = path := by
  rw [sourcePaths, List.mem_eraseDups, List.mem_map]

theorem mem_compartSources {id : Int} {path : Text} :
    path ∈ compartSources q db id ↔
      path ∈ sourcePaths db ∧ compartOf q db path = some id := by
  rw [compartSources, List.mem_filter, decide_eq_true_eq]

theorem pathKey_eq_some_iff : pathKey q db src dest perms = some k ↔
    capPathLabel db src = some k.1 ∧
      pathLabel dest (rangesOf q db dest) = some k.2.1 ∧ perms = k.2.2 := by
  obtain ⟨srcLabel, destLabel, label⟩ := k
  rw [pathKey]
  cases capPathLabel db src <;>
    cases pathLabel dest (rangesOf q db dest) <;> simp

/-- The key of a capability and a path determines the paths it is between. -/
theorem fullGraphKey_eq_some_iff (hnames : NoLabelNames db)
    (hsrc : NoLabel src) (hdest : dest ∈ fullGraphPaths db)
    (hk : pathKey q db src dest perms = some k) {path : Text}
    (hpath : path ∈ fullGraphPaths db) {cap : CapInfo}
    (hcap : cap ∈ db.capInfo) : fullGraphKey q db path cap = some k ↔
      path = dest ∧ cap.capLocPath = src ∧ cap.perms = perms := by
  have hkey : fullGraphKey q db path cap =
      pathKey q db cap.capLocPath path cap.perms := rfl
  constructor
  · intro h
    rw [hkey, pathKey_eq_some_iff] at h
    rw [pathKey_eq_some_iff] at hk
    obtain ⟨v, hv, rfl⟩ := mem_fullGraphPaths.1 hdest
    obtain ⟨v', hv', rfl⟩ := mem_fullGraphPaths.1 hpath
    refine ⟨?_, ?_, h.2.2.trans hk.2.2.symm⟩
    · exact (labelOf_pathLabel h.2.1).unique (labelOf_pathLabel hk.2.1)
        (hnames.vm v' hv') (hnames.vm v hv)
    · exact (labelOf_capPathLabel h.1).unique (labelOf_capPathLabel hk.1)
        (hnames.capInfo cap hcap) hsrc
  · rintro ⟨rfl, rfl, rfl⟩
    exact hkey.trans hk

/-- The loops of the full graph, one in the other. -/
theorem fullGraphCount_eq_sum (k : EdgeKey) :
    fullGraphCount q db k = ((fullGraphPaths db).map fun path =>
      (db.capInfo.map fun cap => (rangesOf q db path).countP fun r =>
        Hit cap path r ∧ fullGraphKey q db path cap = some k).sum).sum := by
  simp only [fullGraphCount, fullGraphTriples, List.countP_flatMap,
    Function.comp_def, List.countP_map, Triple.Passes]
  rfl

/-- An edge of the full graph counts the matches between its paths. -/
theorem fullGraphCount_pathKey (hnames : NoLabelNames db)
    (hsrc : NoLabel src) (hdest : dest ∈ fullGraphPaths db)
    (hk : pathKey q db src dest perms = some k) :
    fullGraphCount q db k = pathMatches q db src dest perms := by
  have hterm : ∀ path ∈ fullGraphPaths db, ∀ cap ∈ db.capInfo,
      (rangesOf q db path).countP (fun r =>
        Hit cap path r ∧ fullGraphKey q db path cap = some k) =
      if path = dest then
        if cap.capLocPath = src ∧ cap.perms = perms then
          (rangesOf q db path).countP fun r => Hit cap path r
        else 0
      else 0 := by
    intro path hpath cap hcap
    simp only [fullGraphKey_eq_some_iff hnames hsrc hdest hk hpath hcap]
    by_cases hdest' : path = dest
    · by_cases hcap' : cap.capLocPath = src ∧ cap.perms = perms
      · simp [hdest', hcap']
      · simp [hdest', hcap']
    · simp [hdest']
  have hpaths : ∀ path ∈ fullGraphPaths db,
      (db.capInfo.map fun cap => (rangesOf q db path).countP fun r =>
        Hit cap path r ∧ fullGraphKey q db path cap = some k).sum =
      if path = dest then pathMatches q db src path perms else 0 := by
    intro path hpath
    rw [List.map_congr_left (hterm path hpath), pathMatches]
    split <;> simp
  have hnodup : (fullGraphPaths db).Nodup := nodup_fullGraphPaths
  rw [fullGraphCount_eq_sum, List.map_congr_left hpaths,
    Steps.sum_map_single (a := dest) (fun path hne => if_neg hne) hnodup,
    if_pos hdest, if_pos rfl]

/-- In a graph that has been drawn there are no matches between paths without
labels. -/
theorem pathMatches_of_pathKey (hlabelled : Labelled q db dest)
    (hk : pathKey q db src dest perms = none) :
    pathMatches q db src dest perms = 0 := by
  obtain ⟨ranges, hranges, hlabel, hsources⟩ := hlabelled
  obtain ⟨label, hlabel⟩ := Option.isSome_iff_exists.1 hlabel
  rw [← rangesOf_eq hranges] at hlabel hsources
  have hterm : ∀ cap ∈ db.capInfo,
      (if cap.capLocPath = src ∧ cap.perms = perms then
        (rangesOf q db dest).countP fun r => Hit cap dest r
      else 0) = 0 := by
    intro cap hcap
    split
    · next hsrc =>
        rw [List.countP_eq_zero]
        intro r hr hhit
        obtain ⟨srcLabel, hsrcLabel⟩ := Option.isSome_iff_exists.1
          (hsources cap hcap r hr (of_decide_eq_true hhit))
        rw [hsrc.1] at hsrcLabel
        simp [pathKey, hsrcLabel, hlabel] at hk
    · rfl
  rw [pathMatches, List.map_congr_left hterm]
  simp

/-- The matches of some of the sources are those of their capabilities. -/
theorem sum_pathMatches (p : Text → Prop) [DecidablePred p]
    (dest perms : Text) : (((sourcePaths db).filter (p ·)).map fun src =>
        pathMatches q db src dest perms).sum =
      (db.capInfo.map fun cap => (rangesOf q db dest).countP fun r =>
        Hit cap dest r ∧ p cap.capLocPath ∧ cap.perms = perms).sum := by
  have hnodup : ((sourcePaths db).filter (p ·)).Nodup :=
    nodup_sourcePaths.filter _
  simp only [pathMatches]
  rw [Steps.sum_map_sum_map]
  refine congrArg List.sum (List.map_congr_left fun cap hcap => ?_)
  have hmem : cap.capLocPath ∈ sourcePaths db :=
    mem_sourcePaths.2 ⟨cap, hcap, rfl⟩
  rw [Steps.sum_map_single (a := cap.capLocPath) ?_ hnodup]
  · by_cases hsrc : p cap.capLocPath <;> by_cases hperms : cap.perms = perms <;>
      simp [hmem, hsrc, hperms]
  · intro src hsrc
    rw [if_neg]
    exact fun h => hsrc h.1.symm

/-- An edge between compartments counts the matches between their paths. -/
theorem compartCount_eq_sum {a b : Int} (hne : a ≠ b) :
    compartCount q db (decText a, decText b, perms) =
      ((compartSources q db a).map fun src => ((compartPaths db b).map
        fun dest => pathMatches q db src dest perms).sum).sum := by
  have hmatches : edgeMatches q db a b perms = fun cap => _ :=
    funext edgeMatches_eq
  rw [compartCount_eq hne, hmatches, Steps.sum_map_sum_map,
    Steps.sum_map_sum_map fun src dest => pathMatches q db src dest perms]
  refine congrArg List.sum (List.map_congr_left fun dest _ => ?_)
  exact (sum_pathMatches (fun src => compartOf q db src = some a) dest
    perms).symm

/-! ### The quotient of a graph -/

section Quotient

variable (q : Quoted) (db : Db)

/-- What the edge of a graph between two paths shows. -/
def Graph.between (full : Graph) (src dest perms : Text) : Nat :=
  (pathKey q db src dest perms).elim 0 full.count

/-- The second graph is the first one with the paths of each compartment put
together and without the loops that this gives. -/
structure Graph.Contracts (full comparts : Graph) : Prop where
  keys : ∀ e ∈ comparts.edges, ∃ a b : Int, a ≠ b ∧
    e.key = (decText a, decText b, e.label)
  drawn : ∀ (a b : Int) (perms : Text), a ≠ b →
    ((∃ e ∈ comparts.edges, e.key = (decText a, decText b, perms)) ↔
      ∃ src ∈ compartSources q db a, ∃ dest ∈ compartPaths db b,
        ∃ e ∈ full.edges, pathKey q db src dest perms = some e.key)
  counts : ∀ (a b : Int) (perms : Text), a ≠ b →
    comparts.count (decText a, decText b, perms) =
      ((compartSources q db a).map fun src => ((compartPaths db b).map
        fun dest => full.between q db src dest perms).sum).sum

end Quotient

theorem mem_fullGraphPaths_of_compartPaths {id : Int} {path : Text}
    (h : path ∈ compartPaths db id) : path ∈ fullGraphPaths db := by
  rw [compartPaths, List.mem_eraseDups, List.mem_map] at h
  obtain ⟨v, hv, rfl⟩ := h
  exact mem_fullGraphPaths.2 ⟨v, (List.mem_filter.1 hv).1, rfl⟩

theorem EdgeTable.between_eq (hnames : NoLabelNames db) {full : Graph}
    (hfull : EdgeTable full.edges (fullGraphCount q db))
    (hlabelled : ∀ path ∈ fullGraphPaths db, Labelled q db path)
    (hsrc : NoLabel src) (hdest : dest ∈ fullGraphPaths db) :
    full.between q db src dest perms = pathMatches q db src dest perms := by
  rw [Graph.between]
  cases hk : pathKey q db src dest perms with
  | none => exact (pathMatches_of_pathKey (hlabelled dest hdest) hk).symm
  | some k =>
      rw [Option.elim_some, hfull.graph_count]
      exact fullGraphCount_pathKey hnames hsrc hdest hk

theorem EdgeTable.between_pos_iff {full : Graph} {n : EdgeKey → Nat}
    (h : EdgeTable full.edges n) : 0 < full.between q db src dest perms ↔
      ∃ e ∈ full.edges, pathKey q db src dest perms = some e.key := by
  rw [Graph.between]
  cases pathKey q db src dest perms with
  | none => simp
  | some k =>
      rw [Option.elim_some, ← h.drawn_iff_count]
      simp only [Option.some.injEq, eq_comm]

theorem EdgeTable.contracts (hnames : NoLabelNames db) {full comparts : Graph}
    (hlabelled : ∀ path ∈ fullGraphPaths db, Labelled q db path)
    (hfull : EdgeTable full.edges (fullGraphCount q db))
    (hcomparts : EdgeTable comparts.edges (compartCount q db)) :
    full.Contracts q db comparts := by
  have hcounts : ∀ (a b : Int) (perms : Text), a ≠ b →
      comparts.count (decText a, decText b, perms) =
        ((compartSources q db a).map fun src => ((compartPaths db b).map
          fun dest => full.between q db src dest perms).sum).sum := by
    intro a b perms hne
    rw [hcomparts.graph_count, compartCount_eq_sum hne]
    refine congrArg List.sum (List.map_congr_left fun src hsrc => ?_)
    refine congrArg List.sum (List.map_congr_left fun dest hdest => ?_)
    obtain ⟨cap, hcap, rfl⟩ := mem_sourcePaths.1 (mem_compartSources.1 hsrc).1
    exact (hfull.between_eq hnames hlabelled (hnames.capInfo cap hcap)
      (mem_fullGraphPaths_of_compartPaths hdest)).symm
  refine ⟨?_, ?_, hcounts⟩
  · intro e he
    obtain ⟨m, _, _, hkey⟩ :=
      compartCount_pos_iff.1 ((hcomparts.drawn e.key).1 ⟨e, he, rfl⟩)
    obtain ⟨i, _, hne, hends⟩ := compartKey_eq_some_iff.1 hkey
    refine ⟨i, m.compartId, hne, ?_⟩
    have hlabel : m.cap.perms = e.label := congrArg (·.2.2) hends
    rw [← hlabel, hends]
  · intro a b perms hne
    rw [hcomparts.drawn_iff_count, hcounts a b perms hne]
    simp only [List.sum_pos_iff_exists_pos_nat, List.mem_map,
      exists_exists_and_eq_and, hfull.between_pos_iff]

/-- Whenever both graphs can be drawn, the graph of the compartments is the
full graph with the paths of each compartment put together. -/
theorem compartGraph_contracts (q : Quoted) {db : Db}
    (hnames : NoLabelNames db) {full comparts : Graph}
    (hfull : genFullGraph q db = some full)
    (hcomparts : showComparts q db = some comparts) :
    full.Contracts q db comparts := by
  obtain ⟨hlabelled, htable⟩ := genFullGraph_edgeTable hfull
  obtain ⟨_, hcompartTable, _⟩ := showComparts_edgeTable hcomparts
  exact htable.contracts hnames hlabelled hcompartTable

/-- The stack of this process belongs to no compartment, and its only edge is
the one from the compartment -1 to that of the program. -/
theorem compartGraph_of_ls_contracts :
    ∃ full comparts,
      genFullGraph noQuotes (dbAfter lsTarget Db.empty) = some full ∧
      showComparts noQuotes (dbAfter lsTarget Db.empty) = some comparts ∧
      full.Contracts noQuotes (dbAfter lsTarget Db.empty) comparts ∧
      comparts.count (decText (-1), decText 1, "rwRW".toList) = 1 ∧
      full.between noQuotes (dbAfter lsTarget Db.empty) "Stack".toList lsPath
        "rwRW".toList = 1 := by
  have hnames : NoLabelNames (dbAfter lsTarget Db.empty) := by
    constructor
    · intro v hv
      refine noLabel_of_heads ?_
      revert v
      decide +kernel
    · intro cap hcap
      refine noLabel_of_heads ?_
      revert cap
      decide +kernel
  have hfull : (genFullGraph noQuotes (dbAfter lsTarget Db.empty)).map
      (fun g => g.between noQuotes (dbAfter lsTarget Db.empty) "Stack".toList
        lsPath "rwRW".toList) = some 1 := by decide +kernel
  have hcomparts : (showComparts noQuotes (dbAfter lsTarget Db.empty)).map
      (fun g => g.count (decText (-1), decText 1, "rwRW".toList)) =
        some 1 := by decide +kernel
  obtain ⟨full, hg, hbetween⟩ := Option.map_eq_some_iff.1 hfull
  obtain ⟨comparts, hg', hcount⟩ := Option.map_eq_some_iff.1 hcomparts
  exact ⟨full, comparts, hg, hg',
    compartGraph_contracts noQuotes hnames hg hg', hcount, hbetween⟩

end Chericat
