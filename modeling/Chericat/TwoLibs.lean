import Chericat.CompartGraphs
import Chericat.EdgeWeights

/-!
The graph of two libraries.  Its second loop takes the pen width of a new edge
from whatever was drawn last, so that the graph depends on the order of the
libraries.
-/

namespace Chericat

open Numeral SqlLike

/-! ### Matches -/

/-- The permission texts of the capabilities that point into the ranges, one
for each match, in the order of the loops. -/
def matchLabels (caps : List CapInfo) (ranges : List VmInfo) : List Text :=
  ((caps ×ˢ ranges).filter fun m =>
    pointsInto m.1.capAddr m.2.toVmEntry).map fun m => m.1.perms

/-- How many matches have these permissions. -/
def matchCount (caps : List CapInfo) (ranges : List VmInfo) (perms : Text) :
    Nat :=
  (caps ×ˢ ranges).countP fun m =>
    pointsInto m.1.capAddr m.2.toVmEntry && m.1.perms = perms

theorem count_matchLabels (caps : List CapInfo) (ranges : List VmInfo)
    (perms : Text) :
    (matchLabels caps ranges).count perms = matchCount caps ranges perms := by
  rw [matchLabels, List.count_eq_countP, List.countP_map, List.countP_filter,
    matchCount]
  refine List.countP_congr fun m _ => ?_
  simp [and_comm]

/-- What the edges from one library to another one count. -/
def directedCount (src dest : Text) (n : Text → Nat) (k : EdgeKey) : Nat :=
  if src = k.1 ∧ dest = k.2.1 then n k.2.2 else 0

/-! ### Labels one after the other -/

/-- One more match with this label. -/
def drawLabel (src dest : Text) (s : EdgeState) (label : Text) :
    Option EdgeState :=
  (s.strengthen src dest label).append src dest label

/-- A library's capabilities draw the labels of their matches. -/
theorem run_matches (src dest : Text) (s : EdgeState) (caps : List CapInfo)
    (ranges : List VmInfo) :
    Steps.run (fun s cap => Steps.run (twoLibsStep src dest cap) s ranges) s
        caps =
      Steps.run (drawLabel src dest) s (matchLabels caps ranges) := by
  have hstep : (fun s (m : CapInfo × VmInfo) =>
      twoLibsStep src dest m.1 s m.2) = fun s m =>
        if pointsInto m.1.capAddr m.2.toVmEntry = true
        then drawLabel src dest s m.1.perms else some s := rfl
  rw [Steps.run_product (twoLibsStep src dest), hstep, Steps.run_filter]
  simp only [matchLabels, Bool.decide_eq_true]

variable {src dest : Text} {s : EdgeState} {n : EdgeKey → Nat}

/-- If there is a result, then some edge of it has the wrong weight. -/
def Spoilt (r : Option EdgeState) (n : EdgeKey → Nat) : Prop :=
  ∀ s, r = some s → ∃ widths, EdgeMap s.edges widths ∧
    ∃ k w, widths k = some w ∧ w ≠ 9 + n k

theorem Spoilt.not_edgeTable (h : Spoilt (some s) n) :
    ¬ EdgeTable s.edges n := by
  intro htable
  obtain ⟨widths, hmap, k, w, hw, hne⟩ := h s rfl
  have hright := hmap.eq_some_of (edgeTable_iff.mp htable) hw
  rw [widthOf] at hright
  split at hright
  · cases hright
  · exact hne (Option.some.inj hright).symm

/-- A wrong weight stays wrong. -/
theorem Spoilt.drawLabel (h : Spoilt (some s) n) (label : Text) :
    Spoilt (drawLabel src dest s label)
      fun k => n k + once (some (src, dest, label)) k := by
  obtain ⟨widths, hmap, k, w, hw, hne⟩ := h s rfl
  intro s' hs'
  rcases hnext : ((widths (src, dest, label)).map (· + 1)).or s.penwidth
    with - | u
  · rw [Chericat.drawLabel, hmap.draw_eq_none hnext] at hs'
    cases hs'
  · obtain ⟨s'', hs'', _, hmap'⟩ := hmap.draw hnext
    cases hs'.symm.trans hs''
    refine ⟨_, hmap', k, ?_⟩
    by_cases hk : k = (src, dest, label)
    · subst hk
      rw [hw] at hnext
      refine ⟨u, Function.update_self _ _ _, ?_⟩
      simp only [Option.map_some, Option.some_or, Option.some.injEq] at hnext
      simp only [once, if_true]
      omega
    · refine ⟨w, by rw [Function.update_of_ne hk, hw], ?_⟩
      simp only [once, Option.some.injEq, Ne.symm hk, if_false]
      exact hne

/-- The first match of a label draws an edge with the width at hand. -/
theorem EdgeMap.spoilt (h : EdgeMap s.edges fun k => widthOf (n k))
    {label : Text} (hnew : n (src, dest, label) = 0)
    (hw : s.penwidth ≠ some 10) :
    Spoilt (drawLabel src dest s label)
      fun k => n k + once (some (src, dest, label)) k := by
  intro s' hs'
  have hnext : ((widthOf (n (src, dest, label))).map (· + 1)).or s.penwidth =
      s.penwidth := by
    rw [hnew, widthOf, if_pos rfl, Option.map_none, Option.none_or]
  rcases hpen : s.penwidth with - | w
  · rw [drawLabel, h.draw_eq_none (hnext.trans hpen)] at hs'
    cases hs'
  · obtain ⟨s'', hs'', _, hmap⟩ := h.draw (hnext.trans hpen)
    cases hs'.symm.trans hs''
    refine ⟨_, hmap, _, w, Function.update_self _ _ _, ?_⟩
    rw [hpen] at hw
    simp only [hnew, once, if_true]
    rintro rfl
    exact hw rfl

/-! ### Which lists of labels are drawn right -/

/-- Every label comes up before any of them is repeated. -/
def FreshFirst (labels : List Text) : Prop :=
  ∃ fresh rest, labels = fresh ++ rest ∧ fresh.Nodup ∧ rest ⊆ fresh

theorem nodup_concat_iff {labels : List Text} {label : Text} :
    (labels ++ [label]).Nodup ↔ labels.Nodup ∧ label ∉ labels := by
  rw [← List.concat_eq_append, List.nodup_concat, and_comm]

theorem freshFirst_concat {labels : List Text} {label : Text} :
    FreshFirst (labels ++ [label]) ↔
      FreshFirst labels ∧ (label ∈ labels ∨ labels.Nodup) := by
  constructor
  · rintro ⟨fresh, rest, hsplit, hnodup, hsubset⟩
    rcases List.eq_nil_or_concat' rest with rfl | ⟨rest, last, rfl⟩
    · rw [List.append_nil] at hsplit
      have hlabels : labels.Nodup := (hsplit ▸ hnodup).of_append_left
      exact ⟨⟨labels, [], by simp, hlabels, by simp⟩, Or.inr hlabels⟩
    · rw [← List.append_assoc] at hsplit
      obtain ⟨rfl, hlast⟩ := List.append_inj' hsplit rfl
      cases hlast
      refine ⟨⟨fresh, rest, rfl, hnodup, fun x hx =>
        hsubset (List.mem_append_left _ hx)⟩, Or.inl ?_⟩
      exact List.mem_append_left _ (hsubset (by simp))
  · rintro ⟨⟨fresh, rest, rfl, hnodup, hsubset⟩, hlabel⟩
    by_cases hmem : label ∈ fresh ++ rest
    · refine ⟨fresh, rest ++ [label], by simp, hnodup, ?_⟩
      have hfresh : label ∈ fresh :=
        (List.mem_append.mp hmem).elim id fun h => hsubset h
      simpa using ⟨hsubset, hfresh⟩
    · have hlabels := hlabel.resolve_left hmem
      exact ⟨fresh ++ rest ++ [label], [], by simp,
        nodup_concat_iff.mpr ⟨hlabels, hmem⟩, by simp⟩

/-- Nothing is drawn, or the width at hand counts one and every label comes up
before any of them is repeated. -/
def DrawnRight (penwidth : Option Nat) (labels : List Text) : Prop :=
  labels = [] ∨ (penwidth = some 10 ∧ FreshFirst labels)

theorem drawnRight_concat {penwidth : Option Nat} {labels : List Text}
    {label : Text} : DrawnRight penwidth (labels ++ [label]) ↔
      DrawnRight penwidth labels ∧
        (label ∈ labels ∨ (penwidth = some 10 ∧ labels.Nodup)) := by
  rw [DrawnRight, DrawnRight, freshFirst_concat,
    or_iff_right (by simp)]
  constructor
  · rintro ⟨hpen, hfresh, hlabel⟩
    exact ⟨Or.inr ⟨hpen, hfresh⟩, hlabel.imp_right fun h => ⟨hpen, h⟩⟩
  · rintro ⟨rfl | ⟨hpen, hfresh⟩, hlabel⟩
    · have hpen := hlabel.resolve_left List.not_mem_nil
      exact ⟨hpen.1, ⟨[], [], by simp⟩, Or.inr hpen.2⟩
    · exact ⟨hpen, hfresh, hlabel.imp_right And.right⟩

theorem directedCount_concat (labels : List Text) (label : Text)
    (k : EdgeKey) : directedCount src dest ((labels ++ [label]).count ·) k =
      directedCount src dest (labels.count ·) k +
        once (some (src, dest, label)) k := by
  obtain ⟨x, y, z⟩ := k
  by_cases hx : src = x <;> by_cases hy : dest = y <;>
    simp [directedCount, once, hx, hy, List.count_singleton]

/-- The labels have been drawn as they should, and the width at hand counts one
as long as none has come up twice. -/
structure LabelsDrawn (src dest : Text) (n : EdgeKey → Nat) (s : EdgeState)
    (labels : List Text) (s' : EdgeState) : Prop where
  edges : EdgeMap s'.edges fun k =>
    widthOf (n k + directedCount src dest (labels.count ·) k)
  penwidth : s'.penwidth = some 10 ↔ s.penwidth = some 10 ∧ labels.Nodup

theorem LabelsDrawn.count {s' : EdgeState} {labels : List Text}
    (_ : LabelsDrawn src dest n s labels s')
    (hnew : ∀ label, n (src, dest, label) = 0) (label : Text) :
    n (src, dest, label) +
      directedCount src dest (labels.count ·) (src, dest, label) =
        labels.count label := by
  simp [hnew, directedCount]

/-- One more label that has come up before, or finds the width that counts
one. -/
theorem LabelsDrawn.step {u : EdgeState} {labels : List Text} {label : Text}
    (h : LabelsDrawn src dest n s labels u)
    (hnew : ∀ label, n (src, dest, label) = 0)
    (hlabel : label ∈ labels ∨ (s.penwidth = some 10 ∧ labels.Nodup)) :
    ∃ s', drawLabel src dest u label = some s' ∧
      LabelsDrawn src dest n s (labels ++ [label]) s' := by
  have hcounts : u.Counts (some (src, dest, label)) fun k =>
      n k + directedCount src dest (labels.count ·) k := by
    refine ⟨h.edges, fun k hk hzero => ?_⟩
    cases hk
    rw [h.count hnew, List.count_eq_zero] at hzero
    exact h.penwidth.mpr (hlabel.resolve_left hzero)
  obtain ⟨s', hs', hwidth, hcounts'⟩ := hcounts.draw
  refine ⟨s', hs', ?_, ?_⟩
  · simpa only [directedCount_concat, ← Nat.add_assoc] using hcounts'.edges
  · have hten : 9 + labels.count label + 1 = 10 ↔ label ∉ labels := by
      rw [← List.count_eq_zero]
      omega
    rw [hwidth, h.count hnew, Option.some.injEq, hten, nodup_concat_iff]
    constructor
    · intro hmem
      obtain ⟨hs, hnodup⟩ := hlabel.resolve_left hmem
      exact ⟨hs, hnodup, hmem⟩
    · exact fun hall => hall.2.2

/-- Any other label spoils the graph. -/
theorem LabelsDrawn.spoilt {u : EdgeState} {labels : List Text} {label : Text}
    (h : LabelsDrawn src dest n s labels u)
    (hnew : ∀ label, n (src, dest, label) = 0)
    (hlabel : ¬ (label ∈ labels ∨ (s.penwidth = some 10 ∧ labels.Nodup))) :
    Spoilt (drawLabel src dest u label) fun k =>
      n k + directedCount src dest ((labels ++ [label]).count ·) k := by
  obtain ⟨hmem, hpen⟩ := not_or.mp hlabel
  have hzero := h.count hnew label
  rw [List.count_eq_zero.mpr hmem] at hzero
  simp only [directedCount_concat, ← Nat.add_assoc]
  exact h.edges.spoilt hzero (mt h.penwidth.mp hpen)

/-- The labels are drawn as they should, or the result is spoilt. -/
theorem run_drawLabel (hs : EdgeMap s.edges fun k => widthOf (n k))
    (hnew : ∀ label, n (src, dest, label) = 0) (labels : List Text) :
    (DrawnRight s.penwidth labels → ∃ s',
      Steps.run (drawLabel src dest) s labels = some s' ∧
        LabelsDrawn src dest n s labels s') ∧
    (¬ DrawnRight s.penwidth labels →
      Spoilt (Steps.run (drawLabel src dest) s labels)
        fun k => n k + directedCount src dest (labels.count ·) k) := by
  induction labels using List.reverseRecOn with
  | nil =>
      refine ⟨fun _ => ⟨s, rfl, ?_, by simp⟩, fun h => absurd (Or.inl rfl) h⟩
      simpa [directedCount] using hs
  | append_singleton labels label ih =>
      rw [drawnRight_concat, Steps.run_concat]
      constructor
      · rintro ⟨hright, hlabel⟩
        obtain ⟨u, hu, hdrawn⟩ := ih.1 hright
        rw [hu]
        exact hdrawn.step hnew hlabel
      · intro hnot
        by_cases hright : DrawnRight s.penwidth labels
        · obtain ⟨u, hu, hdrawn⟩ := ih.1 hright
          rw [hu]
          exact hdrawn.spoilt hnew fun hlabel => hnot ⟨hright, hlabel⟩
        · have hspoilt := ih.2 hright
          rcases hu : Steps.run (drawLabel src dest) s labels with - | u
          · exact nofun
          · rw [hu] at hspoilt
            simp only [directedCount_concat, ← Nat.add_assoc]
            exact hspoilt.drawLabel label

/-! ### The first loop -/

theorem matchLabels_concat (caps : List CapInfo) (cap : CapInfo)
    (ranges : List VmInfo) : matchLabels (caps ++ [cap]) ranges =
      matchLabels caps ranges ++ matchLabels [cap] ranges := by
  simp [matchLabels, SProd.sprod, List.product]

theorem matchLabels_singleton (cap : CapInfo) (ranges : List VmInfo) :
    ∀ label ∈ matchLabels [cap] ranges, label = cap.perms := by
  intro label hlabel
  obtain ⟨⟨c, r⟩, hm, rfl⟩ := List.mem_map.mp hlabel
  have hpair := List.pair_mem_product.mp (List.mem_of_mem_filter hm)
  rw [List.mem_singleton.mp hpair.1]

theorem matchLabels_eq_nil_iff {cap : CapInfo} {ranges : List VmInfo} :
    matchLabels [cap] ranges = [] ↔
      ∀ r ∈ ranges, pointsInto cap.capAddr r.toVmEntry = false := by
  simp [matchLabels]

/-- The matches of one capability all draw the same label. -/
theorem run_sameLabel {label : Text}
    (hs : s.Counts (some (src, dest, label)) n) {labels : List Text}
    (hall : ∀ x ∈ labels, x = label) :
    ∃ s', Steps.run (drawLabel src dest) s labels = some s' ∧
      (s'.Counts (some (src, dest, label)) fun k =>
        n k + directedCount src dest (labels.count ·) k) ∧
      s'.penwidth = if labels = [] then s.penwidth
        else some (9 + (n (src, dest, label) + labels.count label)) := by
  induction labels using List.reverseRecOn with
  | nil =>
      refine ⟨s, rfl, ?_, by simp⟩
      simpa [directedCount] using hs
  | append_singleton labels x ih =>
      rw [List.forall_mem_append, List.forall_mem_singleton] at hall
      obtain ⟨hall, rfl⟩ := hall
      obtain ⟨u, hu, hcounts, _⟩ := ih hall
      obtain ⟨s', hs', hpen, hcounts'⟩ := hcounts.draw
      refine ⟨s', ?_, ?_, ?_⟩
      · rw [Steps.run_concat, hu]
        exact hs'
      · simpa only [directedCount_concat, ← Nat.add_assoc] using hcounts'
      · rw [hpen, if_neg (by simp)]
        simp [directedCount, Nat.add_assoc]

/-- After the first loop the width at hand counts one: its last capability has
no match, or the only one with its permissions. -/
def WidthReset (caps : List CapInfo) (ranges : List VmInfo) : Prop :=
  ∃ cap ∈ caps.getLast?,
    (∀ r ∈ ranges, pointsInto cap.capAddr r.toVmEntry = false) ∨
      matchCount caps ranges cap.perms = 1

theorem run_firstLoop (src dest : Text) (caps : List CapInfo)
    (ranges : List VmInfo) :
    ∃ s', Steps.run
        (fun s cap => Steps.run (twoLibsStep src dest cap)
          { s with penwidth := some 10 } ranges) ⟨[], none⟩ caps = some s' ∧
      (EdgeMap s'.edges fun k =>
        widthOf (directedCount src dest (matchCount caps ranges) k)) ∧
      (s'.penwidth = some 10 ↔ WidthReset caps ranges) := by
  induction caps using List.reverseRecOn with
  | nil =>
      refine ⟨_, rfl, ?_, by simp [WidthReset]⟩
      simpa [directedCount, matchCount, widthOf, SProd.sprod, List.product]
        using edgeMap_nil
  | append_singleton caps cap ih =>
      obtain ⟨u, hu, hmap, _⟩ := ih
      obtain ⟨s', hs', hcounts, hpen⟩ := run_sameLabel
        (hmap.counts (some (src, dest, cap.perms)))
        (matchLabels_singleton cap ranges)
      have hcount : ∀ label, matchCount caps ranges label +
          (matchLabels [cap] ranges).count label =
            matchCount (caps ++ [cap]) ranges label := by
        intro label
        rw [← count_matchLabels, ← count_matchLabels, matchLabels_concat,
          List.count_append]
      refine ⟨s', ?_, ?_, ?_⟩
      · rw [Steps.run_concat, hu, Option.bind_some, ← hs', ← run_matches]
        simp only [Steps.run, Option.bind_fun_some]
      · have htotal : ∀ k, directedCount src dest (matchCount caps ranges) k +
            directedCount src dest ((matchLabels [cap] ranges).count ·) k =
              directedCount src dest (matchCount (caps ++ [cap]) ranges) k := by
          intro k
          rw [directedCount, directedCount, directedCount, ← hcount]
          split <;> rfl
        simpa only [htotal] using hcounts.edges
      · have hkey : directedCount src dest (matchCount caps ranges)
            (src, dest, cap.perms) = matchCount caps ranges cap.perms := by
          simp [directedCount]
        simp only [hpen, hkey, hcount, WidthReset, List.getLast?_concat,
          Option.mem_def, Option.some.injEq, exists_eq_left',
          ← matchLabels_eq_nil_iff]
        split
        · next hnil => simp [hnil]
        · next hne =>
            simp only [hne, false_or, Option.some.injEq]
            omega

/-! ### Both loops -/

/-- The matches of both directions. -/
def twoLibsCount (lib1 lib2 : Text) (caps1 caps2 : List CapInfo)
    (ranges1 ranges2 : List VmInfo) (k : EdgeKey) : Nat :=
  directedCount lib1 lib2 (matchCount caps1 ranges2) k +
    directedCount lib2 lib1 (matchCount caps2 ranges1) k

/-- When the two loops give the edges the right weights: the second one has no
match, or it starts from the width that counts one and meets all its permission
texts before it meets one of them again. -/
def LoopsServe (caps1 : List CapInfo) (ranges2 : List VmInfo)
    (caps2 : List CapInfo) (ranges1 : List VmInfo) : Prop :=
  matchLabels caps2 ranges1 = [] ∨
    (WidthReset caps1 ranges2 ∧ FreshFirst (matchLabels caps2 ranges1))

/-- The answers to the four queries. -/
structure TwoLibsQueries (q : Quoted) (db : Db) (lib1 lib2 : Text)
    (caps1 caps2 : List CapInfo) (ranges1 ranges2 : List VmInfo) : Prop where
  caps1 : libCaps q db lib1 = some caps1
  caps2 : libCaps q db lib2 = some caps2
  ranges1 : rowsLike q db lib1 = some ranges1
  ranges2 : rowsLike q db lib2 = some ranges2

theorem TwoLibsQueries.symm {q : Quoted} {db : Db} {lib1 lib2 : Text}
    {caps1 caps2 : List CapInfo} {ranges1 ranges2 : List VmInfo}
    (h : TwoLibsQueries q db lib1 lib2 caps1 caps2 ranges1 ranges2) :
    TwoLibsQueries q db lib2 lib1 caps2 caps1 ranges2 ranges1 :=
  ⟨h.caps2, h.caps1, h.ranges2, h.ranges1⟩

theorem twoLibsEdges_iff {q : Quoted} {db : Db} {lib1 lib2 : Text}
    (hne : lib1 ≠ lib2) {caps1 caps2 : List CapInfo}
    {ranges1 ranges2 : List VmInfo}
    (h : TwoLibsQueries q db lib1 lib2 caps1 caps2 ranges1 ranges2) :
    (∃ edges, twoLibsEdges q db lib1 lib2 = some edges ∧ EdgeTable edges
      (twoLibsCount lib1 lib2 caps1 caps2 ranges1 ranges2)) ↔
      LoopsServe caps1 ranges2 caps2 ranges1 := by
  obtain ⟨s, hs, hmap, hpen⟩ := run_firstLoop lib1 lib2 caps1 ranges2
  have hedges : twoLibsEdges q db lib1 lib2 =
      (Steps.run (drawLabel lib2 lib1) s
        (matchLabels caps2 ranges1)).map EdgeState.edges := by
    simp only [twoLibsEdges, h.caps1, h.caps2, h.ranges1, h.ranges2, hs,
      Option.bind_eq_bind, Option.bind_some, run_matches]
    rw [Option.map_eq_bind]
    rfl
  have hserve : LoopsServe caps1 ranges2 caps2 ranges1 ↔
      DrawnRight s.penwidth (matchLabels caps2 ranges1) := by
    rw [LoopsServe, DrawnRight, hpen]
  have hnew : ∀ label, directedCount lib1 lib2 (matchCount caps1 ranges2)
      (lib2, lib1, label) = 0 := by
    intro label
    rw [directedCount, if_neg]
    exact fun hends => hne hends.1
  have hrun := run_drawLabel hmap hnew (matchLabels caps2 ranges1)
  simp only [count_matchLabels] at hrun
  rw [hedges, hserve]
  constructor
  · rintro ⟨edges, hedges, htable⟩
    by_contra hnot
    obtain ⟨s', hs', rfl⟩ := Option.map_eq_some_iff.mp hedges
    have hspoilt := hrun.2 hnot
    rw [hs'] at hspoilt
    exact hspoilt.not_edgeTable htable
  · intro hright
    obtain ⟨s', hs', hdrawn⟩ := hrun.1 hright
    have htable := edgeTable_iff.mpr hdrawn.edges
    simp only [count_matchLabels] at htable
    exact ⟨s'.edges, by rw [hs', Option.map_some], htable⟩

/-- The graph is drawn for both orders of the libraries, with the same edges,
and these weigh the matches of their direction. -/
def TwoLibsSymmetric (q : Quoted) (db : Db) (lib1 lib2 : Text) : Prop :=
  ∃ caps1 caps2 ranges1 ranges2,
    TwoLibsQueries q db lib1 lib2 caps1 caps2 ranges1 ranges2 ∧
    ∃ edges edges', twoLibsEdges q db lib1 lib2 = some edges ∧
      twoLibsEdges q db lib2 lib1 = some edges' ∧ edges.Perm edges' ∧
      EdgeTable edges (twoLibsCount lib1 lib2 caps1 caps2 ranges1 ranges2)

/-- The graph of two libraries is symmetric if and only if the queries are
answered and the loops serve in both orders. -/
theorem twoLibsSymmetric_iff (q : Quoted) (db : Db) {lib1 lib2 : Text}
    (hne : lib1 ≠ lib2) :
    TwoLibsSymmetric q db lib1 lib2 ↔ ∃ caps1 caps2 ranges1 ranges2,
      TwoLibsQueries q db lib1 lib2 caps1 caps2 ranges1 ranges2 ∧
        LoopsServe caps1 ranges2 caps2 ranges1 ∧
        LoopsServe caps2 ranges1 caps1 ranges2 := by
  refine exists_congr fun caps1 => exists_congr fun caps2 =>
    exists_congr fun ranges1 => exists_congr fun ranges2 =>
      and_congr_right fun h => ?_
  have hswap : twoLibsCount lib2 lib1 caps2 caps1 ranges2 ranges1 =
      twoLibsCount lib1 lib2 caps1 caps2 ranges1 ranges2 :=
    funext fun k => Nat.add_comm _ _
  have hleft := twoLibsEdges_iff hne h
  have hright := twoLibsEdges_iff hne.symm h.symm
  rw [hswap] at hright
  rw [← hleft, ← hright]
  constructor
  · rintro ⟨edges, edges', hedges, hedges', hperm, htable⟩
    refine ⟨⟨edges, hedges, htable⟩, edges', hedges', ?_⟩
    exact htable.perm hperm
  · rintro ⟨⟨edges, hedges, htable⟩, edges', hedges', htable'⟩
    exact ⟨edges, edges', hedges, hedges',
      (edgeTable_iff.mp htable).perm (edgeTable_iff.mp htable'), htable⟩

/-! ### Two libraries that point to each other -/

def mutualLib : Bool → Text
  | true => libA
  | false => libB

def mutualBlock (lib : Bool) : VmInfo :=
  VmEntry.inserted
    { startAddr := hexText (if lib then 0x40000 else 0x50000)
      endAddr := hexText (if lib then 0x41000 else 0x51000)
      mmapPath := mutualLib lib
      compartId := if lib then 1 else 2
      kveProtection := 3
      mmapFlags := 0
      vnodeType := 1 }

/-- The library points into the other one. -/
def mutualCap (lib : Bool) : CapInfo :=
  { capLocAddr := hexText (if lib then 0x40010 else 0x50010)
    capLocPath := mutualLib lib
    capAddr := hexText (if lib then 0x50020 else 0x40020)
    perms := "rwRW".toList
    base := hexText 0
    top := hexText 0 }

/-- Two libraries, and the capabilities of some of them. -/
def mutualDb (holders : List Bool) : Db :=
  { Db.empty with
    vm := [mutualBlock true, mutualBlock false]
    capInfo := holders.map mutualCap }

theorem mutual_symmetric :
    TwoLibsSymmetric noQuotes (mutualDb [true, false]) (mutualLib true)
      (mutualLib false) := by
  have hfresh (lib : Bool) : FreshFirst
      (matchLabels [mutualCap lib] [mutualBlock (!lib)]) :=
    ⟨["rwRW".toList], [], by revert lib; decide, by decide, by simp⟩
  refine (twoLibsSymmetric_iff noQuotes _ (by decide)).mpr
    ⟨[mutualCap true], [mutualCap false], [mutualBlock true],
      [mutualBlock false], ?_, ?_, ?_⟩
  · exact ⟨by decide, by decide, by decide, by decide⟩
  · exact Or.inr ⟨⟨_, rfl, Or.inr (by decide)⟩, hfresh false⟩
  · exact Or.inr ⟨⟨_, rfl, Or.inr (by decide)⟩, hfresh true⟩

/-- When the first library holds no capability, the first edge of the second
loop has no width; in the other order the graph is drawn. -/
theorem width_unbound :
    twoLibsEdges noQuotes (mutualDb [false]) (mutualLib true)
        (mutualLib false) = none ∧
      twoLibsEdges noQuotes (mutualDb [false]) (mutualLib false)
        (mutualLib true) =
          some [⟨mutualLib false, mutualLib true, "rwRW".toList, some 10⟩] ∧
      ¬ TwoLibsSymmetric noQuotes (mutualDb [false]) (mutualLib true)
        (mutualLib false) := by
  have hnone : twoLibsEdges noQuotes (mutualDb [false]) (mutualLib true)
      (mutualLib false) = none := by
    decide +kernel
  refine ⟨hnone, by decide +kernel, ?_⟩
  rintro ⟨_, _, _, _, _, edges, _, hedges, _⟩
  rw [hnone] at hedges
  cases hedges

end Chericat
