import Chericat.TwoComparts
import Chericat.TwoLibsZoom

/-!
The notebook's copy of the graph of two libraries.  Its first loop looks an edge
up by its ends alone, so that the graph has one edge for all permissions in this
direction; what its second loop draws depends on the width that this edge got.
-/

namespace Chericat

/-! ### The copy -/

def mergedStep (src dest : Text) (cap : CapInfo) (s : EdgeState)
    (range : VmInfo) : Option EdgeState :=
  if pointsInto cap.capAddr range.toVmEntry then
    (s.strengthenEnds src dest).append src dest cap.perms
  else some s

def libNode (lib fillcolor : Text) : Node := ⟨lib, lib, fillcolor, "same".toList⟩

/-- `show_caps_between_two_libs` of the notebook.  The second loop is the one of
the script. -/
def notebookTwoLibs (q : Quoted) (db : Db) (lib1 lib2 : Text) :
    Option Graph := do
  let lib1Caps ← libCaps q db lib1
  let lib2Caps ← libCaps q db lib2
  let lib1Ranges ← rowsLike q db lib1
  let lib2Ranges ← rowsLike q db lib2
  let s ← Steps.run
    (fun s cap => Steps.run (mergedStep lib1 lib2 cap)
      { s with penwidth := some 10 } lib2Ranges)
    ⟨[], none⟩ lib1Caps
  let s ← Steps.run
    (fun s cap => Steps.run (twoLibsStep lib2 lib1 cap) s lib1Ranges)
    s lib2Caps
  some
    { nodes := [libNode lib1 "lightblue".toList, libNode lib2 "pink".toList]
      edges := s.edges }

/-! ### The first loops -/

/-- The edge of all matches, with the permissions of the last one. -/
def mergedEdges (src dest : Text) (labels : List Text) : List Edge :=
  (labels.getLast?.map fun label =>
    ⟨src, dest, label, some (9 + labels.length)⟩).toList

def drawEnds (src dest : Text) (s : EdgeState) (label : Text) :
    Option EdgeState :=
  (s.strengthenEnds src dest).append src dest label

theorem run_mergedMatches (src dest : Text) (s : EdgeState) (cap : CapInfo)
    (ranges : List VmInfo) :
    Steps.run (mergedStep src dest cap) s ranges =
      Steps.run (drawEnds src dest) s (matchLabels [cap] ranges) := by
  have hstep : (fun s (m : CapInfo × VmInfo) =>
      mergedStep src dest m.1 s m.2) = fun s m =>
        if pointsInto m.1.capAddr m.2.toVmEntry = true
        then drawEnds src dest s m.1.perms else some s := rfl
  have hproduct := Steps.run_product (mergedStep src dest) s [cap] ranges
  rw [hstep, Steps.run_filter] at hproduct
  simp only [Steps.run, Option.bind_fun_some] at hproduct
  rw [hproduct]
  simp only [matchLabels, Bool.decide_eq_true]

theorem drawEnds_mergedEdges (src dest : Text) {labels : List Text}
    {penwidth : Option Nat} (h : labels = [] → penwidth = some 10)
    (label : Text) :
    drawEnds src dest ⟨mergedEdges src dest labels, penwidth⟩ label =
      some ⟨mergedEdges src dest (labels ++ [label]),
        some (9 + (labels ++ [label]).length)⟩ := by
  rcases List.eq_nil_or_concat' labels with rfl | ⟨labels, last, rfl⟩
  · simp [drawEnds, EdgeState.strengthenEnds, EdgeState.append, mergedEdges,
      h rfl]
  · simp [drawEnds, EdgeState.strengthenEnds, EdgeState.append, mergedEdges,
      Edge.joins]
    omega

/-- Each match moves the only edge, and makes it weigh one more. -/
theorem run_drawEnds (src dest : Text) (labels more : List Text) :
    Steps.run (drawEnds src dest) ⟨mergedEdges src dest labels, some 10⟩ more =
      some ⟨mergedEdges src dest (labels ++ more),
        if more = [] then some 10
        else some (9 + (labels ++ more).length)⟩ := by
  induction more using List.reverseRecOn with
  | nil => simp [Steps.run]
  | append_singleton more label ih =>
      have hpen : labels ++ more = [] → (if more = [] then some 10
          else some (9 + (labels ++ more).length)) = some 10 := by
        intro hnil
        rw [if_pos (List.append_eq_nil_iff.1 hnil).2]
      rw [Steps.run_concat, ih, Option.bind_some,
        drawEnds_mergedEdges src dest hpen, if_neg (by simp),
        List.append_assoc]

/-- What is left in the variable after the first loop: one for the last
capability, or the number that its last match has shown. -/
def lastWidth (shown : CapInfo → Nat) (caps : List CapInfo)
    (ranges : List VmInfo) : Option Nat :=
  caps.getLast?.map fun cap =>
    if matchLabels [cap] ranges = [] then 10 else 9 + shown cap

theorem run_mergedLoop (src dest : Text) (caps : List CapInfo)
    (ranges : List VmInfo) :
    Steps.run (fun s cap => Steps.run (mergedStep src dest cap)
        { s with penwidth := some 10 } ranges) ⟨[], none⟩ caps =
      some ⟨mergedEdges src dest (matchLabels caps ranges),
        lastWidth (fun _ => (matchLabels caps ranges).length) caps ranges⟩ := by
  induction caps using List.reverseRecOn with
  | nil => rfl
  | append_singleton caps cap ih =>
      rw [Steps.run_concat, ih, Option.bind_some, run_mergedMatches,
        run_drawEnds, ← matchLabels_concat, lastWidth, List.getLast?_concat,
        Option.map_some]
      split <;> rfl

/-- The loop of the script leaves the weight of one label only. -/
theorem run_firstLoop_width {src dest : Text} {caps : List CapInfo}
    {ranges : List VmInfo} {s : EdgeState}
    (h : Steps.run (fun s cap => Steps.run (twoLibsStep src dest cap)
      { s with penwidth := some 10 } ranges) ⟨[], none⟩ caps = some s) :
    s.penwidth =
      lastWidth (fun cap => matchCount caps ranges cap.perms) caps ranges := by
  rcases List.eq_nil_or_concat' caps with rfl | ⟨caps, cap, rfl⟩
  · cases h
    rfl
  · obtain ⟨u, hu, hmap, _⟩ := run_firstLoop src dest caps ranges
    obtain ⟨s', hs', _, hpen⟩ := run_sameLabel
      (hmap.counts (some (src, dest, cap.perms)))
      (matchLabels_singleton cap ranges)
    rw [Steps.run_concat, hu, Option.bind_some] at h
    rw [← run_matches] at hs'
    simp only [Steps.run, Option.bind_fun_some] at hs'
    cases h.symm.trans hs'
    have hcount : matchCount (caps ++ [cap]) ranges cap.perms =
        directedCount src dest (matchCount caps ranges) (src, dest, cap.perms) +
          (matchLabels [cap] ranges).count cap.perms := by
      rw [← count_matchLabels, matchLabels_concat, List.count_append,
        count_matchLabels, directedCount, if_pos ⟨rfl, rfl⟩]
    rw [hpen, lastWidth, List.getLast?_concat, Option.map_some, hcount]
    split <;> rfl

/-! ### The second loop -/

section Back

variable {src dest : Text}

/-- The width of an edge with these ends after one more match. -/
def nextWidth (widths : Text → Option Nat) (penwidth : Option Nat)
    (label : Text) : Option Nat :=
  ((widths label).map (· + 1)).or penwidth

/-- The widths of the edges between two ends. -/
def EdgeState.Back (src dest : Text) (s : EdgeState)
    (widths : Text → Option Nat) : Prop :=
  ∃ all, EdgeMap s.edges all ∧ ∀ label, all (src, dest, label) = widths label

theorem EdgeState.Back.draw {s : EdgeState} {widths : Text → Option Nat}
    (h : s.Back src dest widths) {label : Text} {w : Nat}
    (hw : nextWidth widths s.penwidth label = some w) :
    ∃ s', drawLabel src dest s label = some s' ∧ s'.penwidth = some w ∧
      s'.Back src dest (Function.update widths label (some w)) := by
  obtain ⟨all, hmap, hall⟩ := h
  rw [nextWidth, ← hall] at hw
  obtain ⟨s', hs', hpen, hmap'⟩ := hmap.draw hw
  refine ⟨s', hs', hpen, _, hmap', fun other => ?_⟩
  by_cases hother : other = label
  · rw [hother, Function.update_self, Function.update_self]
  · rw [Function.update_of_ne hother, Function.update_of_ne, hall]
    intro hkey
    cases hkey
    exact hother rfl

theorem EdgeState.Back.draw_eq_none {s : EdgeState}
    {widths : Text → Option Nat} (h : s.Back src dest widths) {label : Text}
    (hw : nextWidth widths s.penwidth label = none) :
    drawLabel src dest s label = none := by
  obtain ⟨all, hmap, hall⟩ := h
  rw [nextWidth, ← hall] at hw
  exact hmap.draw_eq_none hw

theorem EdgeState.Back.edgeCount_eq {s : EdgeState}
    {widths : Text → Option Nat} (h : s.Back src dest widths) (label : Text) :
    edgeCount s.edges (src, dest, label) = (widths label).getD 0 - 9 := by
  obtain ⟨all, hmap, hall⟩ := h
  rw [hmap.edgeCount_eq, hall]

/-- From the same width, the two loops draw the same. -/
theorem run_same {s s' : EdgeState} {widths : Text → Option Nat}
    (h : s.Back src dest widths) (h' : s'.Back src dest widths)
    (hpen : s.penwidth = s'.penwidth) (labels : List Text) :
    Option.Rel (fun u u' => ∃ widths, u.Back src dest widths ∧
        u'.Back src dest widths ∧ u.penwidth = u'.penwidth)
      (Steps.run (drawLabel src dest) s labels)
      (Steps.run (drawLabel src dest) s' labels) := by
  refine Steps.run_rel ?_ ⟨widths, h, h', hpen⟩ labels
  rintro u u' label ⟨widths, hu, hu', hpen⟩
  cases hw : nextWidth widths u.penwidth label with
  | none =>
      rw [hu.draw_eq_none hw, hu'.draw_eq_none (hpen ▸ hw)]
      exact .none
  | some w =>
      obtain ⟨v, hv, hvpen, hback⟩ := hu.draw hw
      obtain ⟨v', hv', hvpen', hback'⟩ := hu'.draw (hpen ▸ hw)
      rw [hv, hv']
      exact .some ⟨_, hback, hback', hvpen.trans hvpen'.symm⟩

/-- The two graphs differ in the edge of the label, and any other one can be
drawn in both. -/
structure Differ (src dest label : Text) (s s' : EdgeState) : Prop where
  backs : ∃ widths widths' : Text → Option Nat, s.Back src dest widths ∧
    s'.Back src dest widths' ∧ ∃ w w', widths label = some w ∧
      widths' label = some w' ∧ w ≠ w' ∧ 10 ≤ w ∧ 10 ≤ w'
  bound : s.penwidth.isSome ∧ s'.penwidth.isSome

theorem Differ.draw {label : Text} {s s' : EdgeState}
    (h : Differ src dest label s s') (other : Text) :
    Option.Rel (Differ src dest label) (drawLabel src dest s other)
      (drawLabel src dest s' other) := by
  obtain ⟨⟨widths, widths', hs, hs', w, w', hw, hw', hne, hle, hle'⟩, hbound⟩ :=
    h
  obtain ⟨p, hp⟩ := Option.isSome_iff_exists.1 hbound.1
  obtain ⟨p', hp'⟩ := Option.isSome_iff_exists.1 hbound.2
  by_cases hother : other = label
  · subst hother
    obtain ⟨u, hu, hpen, hback⟩ := hs.draw
      (w := w + 1) (by rw [nextWidth, hw]; rfl)
    obtain ⟨u', hu', hpen', hback'⟩ := hs'.draw
      (w := w' + 1) (by rw [nextWidth, hw']; rfl)
    rw [hu, hu']
    refine .some ⟨⟨_, _, hback, hback', w + 1, w' + 1, ?_, ?_, ?_⟩, ?_⟩
    · exact Function.update_self ..
    · exact Function.update_self ..
    · omega
    · simp [hpen, hpen']
  · obtain ⟨v, hv⟩ : ∃ v, nextWidth widths s.penwidth other = some v := by
      cases hold : widths other <;> simp [nextWidth, hold, hp]
    obtain ⟨v', hv'⟩ : ∃ v, nextWidth widths' s'.penwidth other = some v := by
      cases hold : widths' other <;> simp [nextWidth, hold, hp']
    obtain ⟨u, hu, hpen, hback⟩ := hs.draw hv
    obtain ⟨u', hu', hpen', hback'⟩ := hs'.draw hv'
    rw [hu, hu']
    have hlabel := Ne.symm hother
    refine .some ⟨⟨_, _, hback, hback', w, w', ?_, ?_, hne, hle, hle'⟩, ?_⟩
    · rw [Function.update_of_ne hlabel, hw]
    · rw [Function.update_of_ne hlabel, hw']
    · simp [hpen, hpen']

theorem Differ.edgeCount_ne {label : Text} {s s' : EdgeState}
    (h : Differ src dest label s s') :
    edgeCount s.edges (src, dest, label) ≠
      edgeCount s'.edges (src, dest, label) := by
  obtain ⟨⟨widths, widths', hs, hs', w, w', hw, hw', hne, hle, hle'⟩, _⟩ := h
  rw [hs.edgeCount_eq, hs'.edgeCount_eq, hw, hw', Option.getD_some,
    Option.getD_some]
  omega

/-- From different widths, the first label to be drawn is drawn differently,
and stays so. -/
theorem run_differ {s s' : EdgeState}
    (h : s.Back src dest fun _ => none) (h' : s'.Back src dest fun _ => none)
    {p p' : Nat} (hp : s.penwidth = some p) (hp' : s'.penwidth = some p')
    (hne : p ≠ p') (hle : 10 ≤ p) (hle' : 10 ≤ p') (label : Text)
    (labels : List Text) :
    Option.Rel (Differ src dest label)
      (Steps.run (drawLabel src dest) s (label :: labels))
      (Steps.run (drawLabel src dest) s' (label :: labels)) := by
  have hfirst : nextWidth (fun _ => none) s.penwidth label = some p := hp
  have hfirst' : nextWidth (fun _ => none) s'.penwidth label = some p' := hp'
  obtain ⟨u, hu, hpen, hback⟩ := h.draw hfirst
  obtain ⟨u', hu', hpen', hback'⟩ := h'.draw hfirst'
  rw [Steps.run, Steps.run, hu, hu']
  refine Steps.run_rel (fun s s' other h => h.draw other) ?_ labels
  refine ⟨⟨_, _, hback, hback', p, p', ?_, ?_, hne, hle, hle'⟩, ?_⟩
  · exact Function.update_self ..
  · exact Function.update_self ..
  · simp [hpen, hpen']

end Back

/-! ### What the second loop keeps -/

section Kept

variable {src dest label : Text} {s s' : EdgeState}

theorem mem_drawLabel (h : drawLabel src dest s label = some s') {e : Edge}
    (he : e ∈ s'.edges) : e ∈ s.edges ∨ e.src = src ∧ e.dest = dest := by
  obtain ⟨w, _, rfl⟩ := Option.map_eq_some_iff.1 h
  rw [List.mem_append, List.mem_singleton] at he
  rcases he with he | rfl
  · refine Or.inl ?_
    rw [EdgeState.strengthen] at he
    split at he
    · exact List.mem_of_mem_erase he
    · exact he
  · exact Or.inr ⟨rfl, rfl⟩

/-- Edges that start elsewhere stay as they are, in their order. -/
theorem filter_drawLabel (h : drawLabel src dest s label = some s')
    {p : Edge → Bool} (hp : ∀ e, p e = true → e.src ≠ src) :
    s'.edges.filter p = s.edges.filter p := by
  have hnot : ∀ e : Edge, e.src = src → p e = false := by
    intro e he
    rw [Bool.eq_false_iff]
    exact fun htrue => hp e htrue he
  obtain ⟨w, _, rfl⟩ := Option.map_eq_some_iff.1 h
  rw [List.filter_append, List.filter_singleton, hnot _ rfl]
  simp only [cond_false, List.append_nil]
  rw [EdgeState.strengthen]
  split
  · next e hfind =>
      have hfound := List.find?_some hfind
      have hsrc : e.src = src :=
        congrArg Prod.fst (Edge.key_eq_iff.1 hfound)
      rw [← List.erase_filter, List.erase_of_not_mem]
      rw [List.mem_filter, hnot e hsrc]
      simp
  · rfl

theorem run_drawLabel_filter {labels : List Text}
    (h : Steps.run (drawLabel src dest) s labels = some s') {p : Edge → Bool}
    (hp : ∀ e, p e = true → e.src ≠ src) :
    s'.edges.filter p = s.edges.filter p := by
  refine Steps.run_induction
    (P := fun u : EdgeState => u.edges.filter p = s.edges.filter p) h rfl ?_
  intro done label rest u u' _ _ hstep hu
  exact (filter_drawLabel hstep hp).trans hu

theorem mem_run_drawLabel {labels : List Text}
    (h : Steps.run (drawLabel src dest) s labels = some s') :
    ∀ e ∈ s'.edges, e ∈ s.edges ∨ e.src = src ∧ e.dest = dest := by
  refine Steps.run_induction (P := fun u : EdgeState =>
    ∀ e ∈ u.edges, e ∈ s.edges ∨ e.src = src ∧ e.dest = dest) h
    (fun e he => Or.inl he) ?_
  intro done label rest u u' _ _ hstep hu e he
  exact (mem_drawLabel hstep he).elim (hu e) Or.inr

end Kept

/-! ### Both copies -/

/-- The first loops of both copies leave the same width: the last capability
has no match, or there are no other permissions than its own. -/
def WidthShared (caps : List CapInfo) (ranges : List VmInfo) : Prop :=
  ∀ cap ∈ caps.getLast?,
    (∀ r ∈ ranges, pointsInto cap.capAddr r.toVmEntry = false) ∨
      ∀ label ∈ matchLabels caps ranges, label = cap.perms

theorem lastWidth_eq_iff (caps : List CapInfo) (ranges : List VmInfo) :
    lastWidth (fun cap => matchCount caps ranges cap.perms) caps ranges =
        lastWidth (fun _ => (matchLabels caps ranges).length) caps ranges ↔
      WidthShared caps ranges := by
  rw [lastWidth, lastWidth, WidthShared]
  cases caps.getLast? with
  | none => simp
  | some cap =>
      simp only [Option.map_some, Option.some.injEq, Option.mem_def,
        forall_eq', ← matchLabels_eq_nil_iff]
      split
      · next hnil => simp [hnil]
      · next hne =>
          rw [or_iff_right hne, Nat.add_left_cancel_iff, ← count_matchLabels,
            List.count_eq_length]
          exact forall₂_congr fun _ _ => eq_comm

theorem le_lastWidth {shown : CapInfo → Nat} {caps : List CapInfo}
    {ranges : List VmInfo} {w : Nat}
    (hshown : ∀ cap ∈ caps, matchLabels [cap] ranges ≠ [] → 0 < shown cap)
    (h : lastWidth shown caps ranges = some w) : 10 ≤ w := by
  obtain ⟨cap, hcap, rfl⟩ := Option.map_eq_some_iff.1 h
  split
  · exact Nat.le_refl 10
  · next hne =>
      have hpos := hshown cap (List.mem_of_getLast? hcap) hne
      omega

/-- What the two copies show of two libraries: the notebook has one edge for all
matches from the first to the second, for which the script has one edge for each
permission text; they agree on the way back just when the second loop has no
match, or the first loops leave the same width. -/
structure CopiesShow (lib1 lib2 : Text) (caps1 caps2 : List CapInfo)
    (ranges1 ranges2 : List VmInfo) (edges : List Edge) (g : Graph) :
    Prop where
  closed : g.Closed
  merged : g.edges.filter (·.joins lib1 lib2) =
    mergedEdges lib1 lib2 (matchLabels caps1 ranges2)
  separate : ∀ perms, edgeCount edges (lib1, lib2, perms) =
    (matchLabels caps1 ranges2).count perms
  back : (∀ perms, edgeCount g.edges (lib2, lib1, perms) =
      edgeCount edges (lib2, lib1, perms)) ↔
    matchLabels caps2 ranges1 = [] ∨ WidthShared caps1 ranges2

theorem perms_mem_matchLabels {caps : List CapInfo} {ranges : List VmInfo}
    {cap : CapInfo} (hcap : cap ∈ caps)
    (hne : matchLabels [cap] ranges ≠ []) :
    cap.perms ∈ matchLabels caps ranges := by
  rw [ne_eq, matchLabels_eq_nil_iff] at hne
  push Not at hne
  obtain ⟨r, hr, hpoints⟩ := hne
  refine List.mem_map.2 ⟨(cap, r), List.mem_filter.2 ⟨?_, ?_⟩, rfl⟩
  · exact List.pair_mem_product.2 ⟨hcap, hr⟩
  · simpa using hpoints

theorem back_mergedEdges {lib1 lib2 : Text} (hne : lib1 ≠ lib2)
    (labels : List Text) (penwidth : Option Nat) :
    (⟨mergedEdges lib1 lib2 labels, penwidth⟩ : EdgeState).Back lib2 lib1
      fun _ => none := by
  rw [EdgeState.Back, mergedEdges]
  cases labels.getLast? with
  | none => exact ⟨_, edgeMap_nil, fun _ => rfl⟩
  | some label =>
      obtain ⟨s', hs', _, hmap⟩ := @EdgeMap.append _
        ⟨[], some (9 + labels.length)⟩ edgeMap_nil lib1 lib2 label rfl _ rfl
      cases hs'
      refine ⟨_, hmap, fun other => Function.update_of_ne ?_ _ _⟩
      intro hkey
      exact hne (congrArg Prod.fst hkey).symm

/-- The ways back of both copies, from the widths at hand. -/
theorem run_backs {src dest : Text} {s s' : EdgeState}
    (h : s.Back src dest fun _ => none) (h' : s'.Back src dest fun _ => none)
    (hbound : s.penwidth = none ↔ s'.penwidth = none)
    (hle : ∀ w, s.penwidth = some w → 10 ≤ w)
    (hle' : ∀ w, s'.penwidth = some w → 10 ≤ w) (labels : List Text) :
    Option.Rel (fun u u' => (∀ label, edgeCount u'.edges (src, dest, label) =
        edgeCount u.edges (src, dest, label)) ↔
          labels = [] ∨ s.penwidth = s'.penwidth)
      (Steps.run (drawLabel src dest) s labels)
      (Steps.run (drawLabel src dest) s' labels) := by
  rcases labels with - | ⟨label, labels⟩
  · refine .some ⟨fun _ => Or.inl rfl, fun _ label => ?_⟩
    rw [h.edgeCount_eq, h'.edgeCount_eq]
  · by_cases hpen : s.penwidth = s'.penwidth
    · have hsame := run_same h h' hpen (label :: labels)
      generalize Steps.run (drawLabel src dest) s _ = r at hsame ⊢
      generalize Steps.run (drawLabel src dest) s' _ = r' at hsame ⊢
      cases hsame with
      | none => exact .none
      | some hback =>
          obtain ⟨widths, hu, hu', _⟩ := hback
          refine .some ⟨fun _ => Or.inr hpen, fun _ label => ?_⟩
          rw [hu.edgeCount_eq, hu'.edgeCount_eq]
    · cases hp : s.penwidth with
      | none => exact absurd (hp.trans (hbound.1 hp).symm) hpen
      | some p =>
          cases hp' : s'.penwidth with
          | none => exact absurd ((hbound.2 hp').trans hp'.symm) hpen
          | some p' =>
              have hwidths : p ≠ p' := by
                rintro rfl
                exact hpen (hp.trans hp'.symm)
              have hdiffer := run_differ h h' hp hp' hwidths (hle p hp)
                (hle' p' hp') label labels
              generalize Steps.run (drawLabel src dest) s _ = r at hdiffer ⊢
              generalize Steps.run (drawLabel src dest) s' _ = r' at hdiffer ⊢
              cases hdiffer with
              | none => exact .none
              | some hback =>
                  refine .some ⟨fun hall => ?_, fun hor => ?_⟩
                  · exact absurd (hall label).symm hback.edgeCount_ne
                  · rcases hor with hnil | heq
                    · cases hnil
                    · exact absurd (Option.some.inj heq) hwidths

theorem mem_mergedEdges {src dest : Text} {labels : List Text} {e : Edge}
    (h : e ∈ mergedEdges src dest labels) : e.src = src ∧ e.dest = dest := by
  obtain ⟨label, -, rfl⟩ := Option.map_eq_some_iff.1 (Option.mem_toList.1 h)
  exact ⟨rfl, rfl⟩

section Second

variable {lib1 lib2 : Text} {labels labels' : List Text}
  {penwidth : Option Nat} {u : EdgeState}

theorem closed_of_run (h : Steps.run (drawLabel lib2 lib1)
      ⟨mergedEdges lib1 lib2 labels, penwidth⟩ labels' = some u) :
    Graph.Closed ⟨[libNode lib1 "lightblue".toList,
      libNode lib2 "pink".toList], u.edges⟩ := by
  intro e he
  rcases mem_run_drawLabel h e he with hmerged | ⟨hsrc, hdest⟩
  · obtain ⟨hsrc, hdest⟩ := mem_mergedEdges hmerged
    rw [hsrc, hdest]
    exact ⟨⟨_, List.mem_cons_self, rfl⟩, _, List.mem_cons_of_mem _
      List.mem_cons_self, rfl⟩
  · rw [hsrc, hdest]
    exact ⟨⟨_, List.mem_cons_of_mem _ List.mem_cons_self, rfl⟩, _,
      List.mem_cons_self, rfl⟩

theorem merged_of_run (hne : lib1 ≠ lib2)
    (h : Steps.run (drawLabel lib2 lib1)
      ⟨mergedEdges lib1 lib2 labels, penwidth⟩ labels' = some u) :
    u.edges.filter (·.joins lib1 lib2) = mergedEdges lib1 lib2 labels := by
  rw [run_drawLabel_filter h, List.filter_eq_self]
  · intro e he
    obtain ⟨hsrc, hdest⟩ := mem_mergedEdges he
    simp [Edge.joins, hsrc, hdest]
  · intro e he
    rw [Edge.joins, Bool.and_eq_true, decide_eq_true_eq] at he
    rw [he.1]
    exact hne

end Second

theorem TwoLibsQueries.edges_eq {q : Quoted} {db : Db} {lib1 lib2 : Text}
    {caps1 caps2 : List CapInfo} {ranges1 ranges2 : List VmInfo}
    (h : TwoLibsQueries q db lib1 lib2 caps1 caps2 ranges1 ranges2)
    {s u : EdgeState}
    (hs : Steps.run (fun s cap => Steps.run (twoLibsStep lib1 lib2 cap)
      { s with penwidth := some 10 } ranges2) ⟨[], none⟩ caps1 = some s)
    (hu : Steps.run (drawLabel lib2 lib1) s (matchLabels caps2 ranges1) =
      some u) : twoLibsEdges q db lib1 lib2 = some u.edges := by
  simp only [twoLibsEdges, h.caps1, h.caps2, h.ranges1, h.ranges2, hs, hu,
    Option.bind_eq_bind, Option.bind_some, run_matches]

theorem rel_bind {α β γ : Type} {R : β → γ → Prop} {x : Option α}
    {f : α → Option β} {g : α → Option γ}
    (h : ∀ a, x = some a → Option.Rel R (f a) (g a)) :
    Option.Rel R (x >>= f) (x >>= g) := by
  cases x with
  | none => exact .none
  | some a => exact h a rfl

/-- For two libraries, the copy in the notebook returns just when the script
does, and shows one edge in the place of those from the first library; the edges
from the second one are the same if and only if it has no match, or nothing but
the permissions of its last matching capability has been drawn before. -/
theorem twoLibs_copies (q : Quoted) (db : Db) {lib1 lib2 : Text}
    (hne : lib1 ≠ lib2) :
    Option.Rel (fun edges g => ∃ caps1 caps2 ranges1 ranges2,
        TwoLibsQueries q db lib1 lib2 caps1 caps2 ranges1 ranges2 ∧
          CopiesShow lib1 lib2 caps1 caps2 ranges1 ranges2 edges g)
      (twoLibsEdges q db lib1 lib2) (notebookTwoLibs q db lib1 lib2) := by
  rw [twoLibsEdges, notebookTwoLibs]
  refine rel_bind fun caps1 hcaps1 => rel_bind fun caps2 hcaps2 =>
    rel_bind fun ranges1 hranges1 => rel_bind fun ranges2 hranges2 => ?_
  obtain ⟨s, hs, hmap, -⟩ := run_firstLoop lib1 lib2 caps1 ranges2
  have hpen := run_firstLoop_width hs
  have hwidth := lastWidth_eq_iff caps1 ranges2
  have hback : s.Back lib2 lib1 fun _ => none := by
    refine ⟨_, hmap, fun label => ?_⟩
    rw [directedCount, if_neg fun hends => hne hends.1]
    rfl
  have hcounted : ∀ cap ∈ caps1, matchLabels [cap] ranges2 ≠ [] →
      0 < matchCount caps1 ranges2 cap.perms := by
    intro cap hcap hmatch
    rw [← count_matchLabels, List.count_pos_iff]
    exact perms_mem_matchLabels hcap hmatch
  have hmatched : ∀ cap ∈ caps1, matchLabels [cap] ranges2 ≠ [] →
      0 < (matchLabels caps1 ranges2).length := fun cap hcap hmatch =>
    List.length_pos_of_mem (perms_mem_matchLabels hcap hmatch)
  have hbacks := run_backs hback (back_mergedEdges hne
      (matchLabels caps1 ranges2) (lastWidth (fun _ =>
        (matchLabels caps1 ranges2).length) caps1 ranges2))
    (by rw [hpen, lastWidth, lastWidth, Option.map_eq_none_iff,
      Option.map_eq_none_iff])
    (fun w hw => le_lastWidth hcounted (hpen.symm.trans hw))
    (fun w hw => le_lastWidth hmatched hw) (matchLabels caps2 ranges1)
  rw [hpen, hwidth] at hbacks
  have hqueries : TwoLibsQueries q db lib1 lib2 caps1 caps2 ranges1 ranges2 :=
    ⟨hcaps1, hcaps2, hranges1, hranges2⟩
  simp only [hs, run_mergedLoop, Option.bind_eq_bind, Option.bind_some,
    run_matches]
  generalize hu : Steps.run (drawLabel lib2 lib1) s _ = r at hbacks ⊢
  generalize hu' : Steps.run (drawLabel lib2 lib1) ⟨_, _⟩ _ = r' at hbacks ⊢
  cases hbacks with
  | none => exact .none
  | some hagree =>
      have hedges := hqueries.edges_eq hs hu
      refine .some ⟨caps1, caps2, ranges1, ranges2, hqueries, ?_, ?_, ?_, hagree⟩
      · exact closed_of_run hu'
      · exact merged_of_run hne hu'
      · intro perms
        rw [count_matchLabels]
        exact twoLibsEdges_count hne hqueries hedges perms

/-- Two libraries that point to each other, the first with two permission
texts. -/
def twoPermsDb : Db :=
  { mutualDb [] with
    capInfo := [mutualCap true,
      { mutualCap true with perms := "rxRE".toList }, mutualCap false] }

/-- In the notebook the only capability of the second library is drawn as
two. -/
theorem copies_differ :
    Option.Rel (fun edges g => ∃ caps1 caps2 ranges1 ranges2,
        TwoLibsQueries noQuotes twoPermsDb libA libB caps1 caps2 ranges1
          ranges2 ∧
            CopiesShow libA libB caps1 caps2 ranges1 ranges2 edges g)
      (twoLibsEdges noQuotes twoPermsDb libA libB)
      (notebookTwoLibs noQuotes twoPermsDb libA libB) ∧
    (twoLibsEdges noQuotes twoPermsDb libA libB).map
        (edgeCount · (libB, libA, "rwRW".toList)) = some 1 ∧
    (notebookTwoLibs noQuotes twoPermsDb libA libB).map
        (Graph.count · (libB, libA, "rwRW".toList)) = some 2 :=
  ⟨twoLibs_copies noQuotes twoPermsDb (by decide), by decide +kernel,
    by decide +kernel⟩

end Chericat
