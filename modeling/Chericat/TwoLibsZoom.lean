import Chericat.CompartQuotient
import Chericat.TwoLibs

/-!
The graph of two libraries against the graph of all of them.  Its edges from
the first library stand for the sums over the edges from all paths that the
name of the library selects.
-/

namespace Chericat

open Numeral SqlLike

/-! ### The edges of the first loop -/

variable {src dest : Text}

/-- The labels between two ends leave the edges between others alone. -/
theorem drawLabel_keeps {s s' : EdgeState} {widths : EdgeKey → Option Nat}
    {label : Text} (h : EdgeMap s.edges widths)
    (hs' : drawLabel src dest s label = some s') :
    ∃ widths', EdgeMap s'.edges widths' ∧
      ∀ k : EdgeKey, k.1 ≠ src → widths' k = widths k := by
  rcases hw : ((widths (src, dest, label)).map (· + 1)).or s.penwidth
    with - | w
  · rw [drawLabel, h.draw_eq_none hw] at hs'
    cases hs'
  · obtain ⟨u, hu, _, hmap⟩ := h.draw hw
    cases hs'.symm.trans hu
    refine ⟨_, hmap, fun k hk => Function.update_of_ne ?_ _ _⟩
    rintro rfl
    exact hk rfl

theorem run_drawLabel_keeps {s s' : EdgeState}
    {widths : EdgeKey → Option Nat} {labels : List Text}
    (h : EdgeMap s.edges widths)
    (hs' : Steps.run (drawLabel src dest) s labels = some s') :
    ∃ widths', EdgeMap s'.edges widths' ∧
      ∀ k : EdgeKey, k.1 ≠ src → widths' k = widths k := by
  refine Steps.run_induction (P := fun u : EdgeState =>
    ∃ widths', EdgeMap u.edges widths' ∧
      ∀ k : EdgeKey, k.1 ≠ src → widths' k = widths k) hs'
    ⟨widths, h, fun _ _ => rfl⟩ ?_
  rintro done label rest u u' _ _ hstep ⟨widths', hmap, hkept⟩
  obtain ⟨widths'', hmap', hkept'⟩ := drawLabel_keeps hmap hstep
  exact ⟨widths'', hmap', fun k hk => (hkept' k hk).trans (hkept k hk)⟩

theorem EdgeMap.edgeCount_eq {edges : List Edge}
    {widths : EdgeKey → Option Nat} (h : EdgeMap edges widths) (k : EdgeKey) :
    edgeCount edges k = (widths k).getD 0 - 9 := by
  rw [edgeCount]
  cases hfind : edges.find? fun e => e.key = k with
  | none =>
      have hnone : widths k = none := by
        rw [Option.eq_none_iff_forall_ne_some]
        intro w hw
        have hmem := (h.mem_iff ⟨k.1, k.2.1, k.2.2, some w⟩).2 ⟨w, rfl, hw⟩
        have hne := List.find?_eq_none.1 hfind _ hmem
        simp [Edge.key] at hne
      rw [hnone]
      rfl
  | some e =>
      have hmem := List.mem_of_find?_eq_some hfind
      have hkey : e.key = k := by simpa using List.find?_some hfind
      obtain ⟨w, hw, hk⟩ := (h.mem_iff e).1 hmem
      rw [← hkey, hk]
      simp [Edge.count, hw]

/-- The state behind the first loop. -/
def twoLibsFirst (q : Quoted) (db : Db) (lib1 lib2 : Text) :
    Option EdgeState := do
  let lib1Caps ← libCaps q db lib1
  let lib2Ranges ← rowsLike q db lib2
  Steps.run (fun s cap => Steps.run (twoLibsStep lib1 lib2 cap)
    { s with penwidth := some 10 } lib2Ranges) ⟨[], none⟩ lib1Caps

/-- The edges from the first library are those that the first loop has drawn. -/
def KeepsFirst (q : Quoted) (db : Db) (lib1 lib2 : Text)
    (edges : List Edge) : Prop :=
  ∃ s, twoLibsFirst q db lib1 lib2 = some s ∧
    ∀ e : Edge, e.src = lib1 → (e ∈ edges ↔ e ∈ s.edges)

section Loops

variable {q : Quoted} {db : Db} {lib1 lib2 : Text}
  {caps1 caps2 : List CapInfo} {ranges1 ranges2 : List VmInfo}
  {edges : List Edge}

/-- The second loop draws edges from the second library only. -/
theorem twoLibsEdges_keeps (hne : lib1 ≠ lib2)
    (h : TwoLibsQueries q db lib1 lib2 caps1 caps2 ranges1 ranges2)
    (hedges : twoLibsEdges q db lib1 lib2 = some edges) :
    ∃ s widths, twoLibsFirst q db lib1 lib2 = some s ∧
      (EdgeMap s.edges fun k =>
        widthOf (directedCount lib1 lib2 (matchCount caps1 ranges2) k)) ∧
      EdgeMap edges widths ∧ ∀ k : EdgeKey, k.1 = lib1 →
        widths k = widthOf (directedCount lib1 lib2
          (matchCount caps1 ranges2) k) := by
  obtain ⟨s, hs, hmap, _⟩ := run_firstLoop lib1 lib2 caps1 ranges2
  simp only [twoLibsEdges, h.caps1, h.caps2, h.ranges1, h.ranges2, hs,
    Option.bind_eq_bind, Option.bind_some, run_matches] at hedges
  obtain ⟨s', hs', hsome⟩ := Option.bind_eq_some_iff.1 hedges
  obtain ⟨widths, hmap', hkept⟩ := run_drawLabel_keeps hmap hs'
  cases hsome
  refine ⟨s, widths, ?_, hmap, hmap', fun k hk => hkept k (hk ▸ hne)⟩
  simp only [twoLibsFirst, h.caps1, h.ranges2, Option.bind_eq_bind,
    Option.bind_some, hs]

theorem keepsFirst (hne : lib1 ≠ lib2)
    (h : TwoLibsQueries q db lib1 lib2 caps1 caps2 ranges1 ranges2)
    (hedges : twoLibsEdges q db lib1 lib2 = some edges) :
    KeepsFirst q db lib1 lib2 edges := by
  obtain ⟨s, widths, hs, hmap, hmap', hkept⟩ := twoLibsEdges_keeps hne h hedges
  refine ⟨s, hs, fun e he => ?_⟩
  rw [hmap'.mem_iff, hmap.mem_iff, hkept e.key he]

theorem twoLibsEdges_count (hne : lib1 ≠ lib2)
    (h : TwoLibsQueries q db lib1 lib2 caps1 caps2 ranges1 ranges2)
    (hedges : twoLibsEdges q db lib1 lib2 = some edges) (perms : Text) :
    edgeCount edges (lib1, lib2, perms) = matchCount caps1 ranges2 perms := by
  obtain ⟨_, widths, _, _, hmap, hkept⟩ := twoLibsEdges_keeps hne h hedges
  rw [hmap.edgeCount_eq, hkept _ rfl]
  by_cases hzero : matchCount caps1 ranges2 perms = 0
  · simp [directedCount, widthOf, hzero]
  · simp [directedCount, widthOf, hzero]

end Loops

/-! ### Zooming in -/

variable {q : Quoted} {db : Db}

theorem libCaps_eq {lib : Text} (hquote : apostrophe ∉ lib) :
    libCaps q db lib = some (db.capInfo.filter fun cap =>
      like (within lib) cap.capLocPath) := by
  rw [libCaps, if_neg hquote]

/-- The matches from the one name to the other that the full graph leaves out,
as it takes both paths for the same library. -/
def hiddenMatches (q : Quoted) (db : Db) (lib1 lib2 perms : Text) : Nat :=
  (db.capInfo.map fun cap => (rangesOf q db lib2).countP fun r =>
    pointsInto cap.capAddr r.toVmEntry = true ∧
      sameLibrary cap.capLocPath lib2 = true ∧
      like (within lib1) cap.capLocPath = true ∧ cap.perms = perms).sum

theorem matchCount_eq_sum (lib1 lib2 perms : Text) :
    matchCount (db.capInfo.filter fun cap => like (within lib1) cap.capLocPath)
        (rangesOf q db lib2) perms =
      (((sourcePaths db).filter fun path => like (within lib1) path).map
        fun path => pathMatches q db path lib2 perms).sum +
        hiddenMatches q db lib1 lib2 perms := by
  have hsources := @sum_pathMatches q db
    (fun path => like (within lib1) path = true) _ lib2 perms
  simp only [Bool.decide_eq_true] at hsources
  have hterm : ∀ cap : CapInfo, (rangesOf q db lib2).countP (fun r =>
      Hit cap lib2 r ∧ like (within lib1) cap.capLocPath = true ∧
        cap.perms = perms) + (rangesOf q db lib2).countP (fun r =>
      pointsInto cap.capAddr r.toVmEntry = true ∧
        sameLibrary cap.capLocPath lib2 = true ∧
        like (within lib1) cap.capLocPath = true ∧ cap.perms = perms) =
      if like (within lib1) cap.capLocPath = true then
        (rangesOf q db lib2).countP fun r =>
          pointsInto cap.capAddr r.toVmEntry && cap.perms = perms
      else 0 := by
    intro cap
    cases hlike : like (within lib1) cap.capLocPath with
    | false => simp
    | true =>
        cases hsame : sameLibrary cap.capLocPath lib2 with
        | false => simp [Hit, hsame]
        | true => simp [Hit, hsame]
  rw [hsources, hiddenMatches, ← List.sum_map_add]
  simp only [hterm]
  rw [List.sum_map_ite]
  simp only [List.map_const', List.sum_replicate, smul_zero, add_zero,
    Bool.decide_eq_true]
  simp only [matchCount, SProd.sprod, List.product, List.countP_flatMap,
    List.countP_map, Function.comp_def]

theorem hiddenMatches_eq_zero_iff {lib1 lib2 : Text} :
    (∀ perms, hiddenMatches q db lib1 lib2 perms = 0) ↔
      ∀ cap ∈ db.capInfo, like (within lib1) cap.capLocPath = true →
        sameLibrary cap.capLocPath lib2 = true →
          ∀ r ∈ rangesOf q db lib2,
            pointsInto cap.capAddr r.toVmEntry = false := by
  simp only [hiddenMatches, List.sum_eq_zero_iff_forall_eq_nat,
    List.forall_mem_map, List.countP_eq_zero, decide_eq_true_eq]
  constructor
  · intro h cap hcap hlike hsame r hr
    have hnone := h cap.perms cap hcap r hr
    simpa [hsame, hlike] using hnone
  · rintro h perms cap hcap r hr ⟨hpoints, hsame, hlike, _⟩
    rw [h cap hcap hlike hsame r hr] at hpoints
    cases hpoints

/-- The second loop leaves the edges from the first library as they are, and
what they show is what the full graph shows from all paths that the name of the
first selects, if and only if the full graph takes none of those that point into
the second for the same library. -/
theorem twoLibs_zooms_iff (q : Quoted) {db : Db} (hnames : NoLabelNames db)
    {full : Graph} (hfull : genFullGraph q db = some full) {lib1 lib2 : Text}
    (hne : lib1 ≠ lib2) (hquote : apostrophe ∉ lib1)
    (hlib2 : lib2 ∈ fullGraphPaths db) {edges : List Edge}
    (hedges : twoLibsEdges q db lib1 lib2 = some edges) :
    KeepsFirst q db lib1 lib2 edges ∧
    ((∀ perms, edgeCount edges (lib1, lib2, perms) =
      (((sourcePaths db).filter fun path => like (within lib1) path).map
        fun path => full.between q db path lib2 perms).sum) ↔
      ∀ cap ∈ db.capInfo, like (within lib1) cap.capLocPath = true →
        sameLibrary cap.capLocPath lib2 = true →
          ∀ r ∈ rangesOf q db lib2,
            pointsInto cap.capAddr r.toVmEntry = false) := by
  obtain ⟨hlabelled, htable⟩ := genFullGraph_edgeTable hfull
  obtain ⟨caps1, hcaps1, hedges'⟩ := Option.bind_eq_some_iff.1 hedges
  obtain ⟨caps2, hcaps2, hedges'⟩ := Option.bind_eq_some_iff.1 hedges'
  obtain ⟨ranges1, hranges1, hedges'⟩ := Option.bind_eq_some_iff.1 hedges'
  obtain ⟨ranges2, hranges2, _⟩ := Option.bind_eq_some_iff.1 hedges'
  have hqueries : TwoLibsQueries q db lib1 lib2 caps1 caps2 ranges1 ranges2 :=
    ⟨hcaps1, hcaps2, hranges1, hranges2⟩
  have hcount := twoLibsEdges_count hne hqueries hedges
  refine ⟨keepsFirst hne hqueries hedges, ?_⟩
  rw [libCaps_eq hquote, Option.some.injEq] at hcaps1
  rw [← hcaps1, ← rangesOf_eq hranges2] at hcount
  rw [← hiddenMatches_eq_zero_iff]
  refine forall_congr' fun perms => ?_
  have hbetween : (((sourcePaths db).filter fun path =>
      like (within lib1) path).map fun path =>
        full.between q db path lib2 perms).sum =
      (((sourcePaths db).filter fun path => like (within lib1) path).map
        fun path => pathMatches q db path lib2 perms).sum := by
    refine congrArg List.sum (List.map_congr_left fun path hpath => ?_)
    obtain ⟨cap, hcap, rfl⟩ := mem_sourcePaths.1 (List.mem_filter.1 hpath).1
    exact htable.between_eq hnames hlabelled (hnames.capInfo cap hcap) hlib2
  rw [hcount, matchCount_eq_sum, hbetween]
  omega

def libM : Text := "/lib/libm.so.5".toList

def libC : Text := "/lib/libc.so.7".toList

/-- Two libraries whose names differ in the last six characters only, the first
of which points into the second. -/
def mathDb : Db :=
  { Db.empty with
    vm :=
      [VmEntry.inserted
          ⟨"0x40000".toList, "0x41000".toList, libM, 1, 3, 0x20, 2⟩,
        VmEntry.inserted
          ⟨"0x50000".toList, "0x51000".toList, libC, 2, 5, 0, 2⟩]
    capInfo :=
      [⟨"0x40010".toList, libM, "0x50010".toList, "rxRE".toList,
        "0x50000".toList, "0x51000".toList⟩] }

theorem mathDb_noLabelNames : NoLabelNames mathDb := by
  constructor
  · intro v hv
    refine noLabel_of_heads ?_
    revert v
    decide +kernel
  · intro cap hcap
    refine noLabel_of_heads ?_
    revert cap
    decide +kernel

/-- The full graph has no edge between the two libraries. -/
theorem libM_hidden :
    ∃ full edges, genFullGraph noQuotes mathDb = some full ∧
      twoLibsEdges noQuotes mathDb libM libC = some edges ∧ full.edges = [] ∧
      ¬ ∀ perms, edgeCount edges (libM, libC, perms) =
        (((sourcePaths mathDb).filter fun path => like (within libM) path).map
          fun path => full.between noQuotes mathDb path libC perms).sum := by
  have hnone : (genFullGraph noQuotes mathDb).map Graph.edges = some [] := by
    decide +kernel
  have hdrawn : (twoLibsEdges noQuotes mathDb libM libC).isSome := by
    decide +kernel
  obtain ⟨full, hfull, hempty⟩ := Option.map_eq_some_iff.1 hnone
  obtain ⟨edges, hedges⟩ := Option.isSome_iff_exists.1 hdrawn
  refine ⟨full, edges, hfull, hedges, hempty, fun h => ?_⟩
  have hshown := (twoLibs_zooms_iff noQuotes mathDb_noLabelNames hfull
    (by decide) (by decide) (by decide +kernel) hedges).2.1 h
  revert hshown
  decide +kernel

end Chericat
