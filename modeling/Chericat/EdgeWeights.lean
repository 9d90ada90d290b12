import Chericat.Graphs
import Chericat.Tally
import Mathlib.Analysis.SpecialFunctions.Log.Base

/-!
The edges of a graph as a table: at most one for each pair of ends and label,
and ten to its pen width is nine more than the number it counts.
-/

namespace Chericat

/-! ### Pen widths -/

/-- The pen width that is kept as ten to its power. -/
noncomputable def penWidth (w : Option Nat) : Option ℝ :=
  w.map fun w : Nat => Real.logb 10 w

/-- Ten to the power of the pen width is `9 + n`. -/
def Edge.Weighs (e : Edge) (n : Nat) : Prop :=
  ∃ x, penWidth e.penwidth = some x ∧ (10 : ℝ) ^ x = 9 + n

theorem ten_rpow_logb {w : Nat} (hw : 0 < w) :
    (10 : ℝ) ^ Real.logb 10 w = w :=
  Real.rpow_logb (by norm_num) (by norm_num) (Nat.cast_pos.mpr hw)

/-- The pen width that a capability starts from. -/
theorem penWidth_ten : penWidth (some 10) = some 1 := by
  rw [penWidth, Option.map_some, Nat.cast_ofNat,
    Real.logb_self_eq_one (by norm_num)]

/-- `math.log((10**(float(penwidth)) + 1), 10)`. -/
theorem penWidth_succ {w : Nat} (hw : 0 < w) {x : ℝ}
    (hx : penWidth (some w) = some x) :
    penWidth (some (w + 1)) = some (Real.logb 10 (10 ^ x + 1)) := by
  rw [penWidth, Option.map_some, Option.some.injEq] at hx
  rw [← hx, ten_rpow_logb hw, penWidth, Option.map_some, Nat.cast_succ]

/-- An edge that is found again gets the next width. -/
theorem EdgeState.penWidth_strengthen {s : EdgeState}
    {src dest label : Text} {e : Edge}
    (hfind : s.edges.find?
      (fun e => e.joins src dest && e.label = label) = some e)
    {w : Nat} (he : e.penwidth = some w) (hw : 0 < w) {x : ℝ}
    (hx : penWidth e.penwidth = some x) :
    penWidth (s.strengthen src dest label).penwidth =
      some (Real.logb 10 (10 ^ x + 1)) := by
  rw [he] at hx
  rw [strengthen, hfind]
  simp only [he, Option.map_some]
  exact penWidth_succ hw hx

theorem Edge.weighs_iff {e : Edge} {n : Nat} :
    e.Weighs n ↔ e.penwidth = some (9 + n) := by
  rcases hw : e.penwidth with - | w
  · simp [Weighs, penWidth, hw]
  · simp only [Weighs, penWidth, hw, Option.map_some, Option.some.injEq,
      exists_eq_left']
    rcases Nat.eq_zero_or_pos w with rfl | hpos
    · have hne : (1 : ℝ) ≠ 9 + n := by
        have hn : (0 : ℝ) ≤ n := Nat.cast_nonneg n
        linarith
      simp [hne]
      omega
    · rw [ten_rpow_logb hpos]
      exact_mod_cast Iff.rfl

/-! ### Keys -/

/-- The ends of an edge and its label. -/
abbrev EdgeKey := Text × Text × Text

def Edge.key (e : Edge) : EdgeKey := (e.src, e.dest, e.label)

def OnePerKey (edges : List Edge) : Prop := (edges.map Edge.key).Nodup

theorem Edge.key_eq_iff {e : Edge} {src dest label : Text} :
    (e.joins src dest && e.label = label) = true ↔
      e.key = (src, dest, label) := by
  simp [joins, key, and_assoc]

theorem Edge.eq_of_key_of_penwidth {d e : Edge} (hkey : d.key = e.key)
    (hwidth : d.penwidth = e.penwidth) : d = e := by
  simp only [key, Prod.mk.injEq] at hkey
  cases d
  cases e
  simp_all only

theorem OnePerKey.eq_of_key {edges : List Edge} (h : OnePerKey edges)
    {d e : Edge} (hd : d ∈ edges) (he : e ∈ edges) (hkey : d.key = e.key) :
    d = e :=
  List.inj_on_of_nodup_map h hd he hkey

/-- Both ends of every edge are nodes. -/
def Graph.Closed (g : Graph) : Prop :=
  ∀ e ∈ g.edges, (∃ n ∈ g.nodes, n.id = e.src) ∧ ∃ n ∈ g.nodes, n.id = e.dest

/-! ### Edges as a map -/

/-- The edges are a map from keys to pen widths. -/
structure EdgeMap (edges : List Edge) (widths : EdgeKey → Option Nat) :
    Prop where
  onePerKey : OnePerKey edges
  mem_iff : ∀ e, e ∈ edges ↔ ∃ w, e.penwidth = some w ∧ widths e.key = some w

variable {edges : List Edge} {widths : EdgeKey → Option Nat}

theorem edgeMap_nil : EdgeMap [] fun _ => none :=
  ⟨List.nodup_nil, fun e => by simp⟩

/-- A map is kept in one way only, the order apart. -/
theorem EdgeMap.perm {edges' : List Edge} (h : EdgeMap edges widths)
    (h' : EdgeMap edges' widths) : edges.Perm edges' := by
  rw [List.perm_ext_iff_of_nodup h.onePerKey.of_map h'.onePerKey.of_map]
  intro e
  rw [h.mem_iff, h'.mem_iff]

/-- The edge with the key is taken out, and its width grows by one. -/
theorem EdgeMap.strengthen {s : EdgeState} (h : EdgeMap s.edges widths)
    (src dest label : Text) :
    (s.strengthen src dest label).penwidth =
        ((widths (src, dest, label)).map (· + 1)).or s.penwidth ∧
      EdgeMap (s.strengthen src dest label).edges
        (Function.update widths (src, dest, label) none) := by
  rw [EdgeState.strengthen]
  split
  · next e hfind =>
      have hmem := List.mem_of_find?_eq_some hfind
      have hkey := List.find?_some hfind
      rw [Edge.key_eq_iff] at hkey
      obtain ⟨w, hw, hwidth⟩ := (h.mem_iff e).mp hmem
      rw [← hkey, hwidth, hw]
      refine ⟨rfl, h.onePerKey.sublist (List.erase_sublist.map _), ?_⟩
      intro d
      rw [h.onePerKey.of_map.mem_erase_iff, h.mem_iff]
      by_cases hd : d.key = e.key
      · simp only [hd, Function.update_self, reduceCtorEq, and_false,
          exists_false, iff_false, not_and]
        intro hne hwd
        rw [← hd] at hwd
        exact hne (h.onePerKey.eq_of_key ((h.mem_iff d).mpr hwd) hmem hd)
      · have hne : d ≠ e := fun heq => hd (heq ▸ rfl)
        simp [hne, Function.update_of_ne hd]
  · next hfind =>
      rw [List.find?_eq_none] at hfind
      have hnone : widths (src, dest, label) = none := by
        rw [Option.eq_none_iff_forall_ne_some]
        intro w hw
        have hmem := (h.mem_iff ⟨src, dest, label, some w⟩).mpr ⟨w, rfl, hw⟩
        exact hfind _ hmem (Edge.key_eq_iff.mpr rfl)
      refine ⟨by rw [hnone]; rfl, ?_⟩
      rwa [← hnone, Function.update_eq_self]

/-- An edge with a new key is added. -/
theorem EdgeMap.append {s : EdgeState} (h : EdgeMap s.edges widths)
    {src dest label : Text} (hnew : widths (src, dest, label) = none)
    {w : Nat} (hw : s.penwidth = some w) :
    ∃ s', s.append src dest label = some s' ∧ s'.penwidth = some w ∧
      EdgeMap s'.edges
        (Function.update widths (src, dest, label) (some w)) := by
  refine ⟨⟨s.edges ++ [⟨src, dest, label, some w⟩], some w⟩, ?_, rfl, ?_, ?_⟩
  · rw [EdgeState.append, hw]
    rfl
  · rw [OnePerKey, List.map_append, List.nodup_append]
    refine ⟨h.onePerKey, List.nodup_singleton _, ?_⟩
    simp only [List.mem_map, List.map_cons, List.map_nil, List.mem_singleton]
    rintro _ ⟨e, he, rfl⟩ _ rfl hkey
    obtain ⟨u, _, hu⟩ := (h.mem_iff e).mp he
    rw [hkey, Edge.key, hnew] at hu
    cases hu
  · intro e
    rw [List.mem_append, List.mem_singleton, h.mem_iff]
    by_cases he : e.key = (src, dest, label)
    · simp only [he, hnew, reduceCtorEq, and_false, exists_false, false_or,
        Function.update_self, Option.some.injEq, exists_eq_right']
      constructor
      · rintro rfl
        rfl
      · exact Edge.eq_of_key_of_penwidth (e := ⟨src, dest, label, some w⟩) he
    · rw [Function.update_of_ne he, or_iff_left]
      rintro rfl
      exact he rfl

/-- What a capability does to the edges: it adds one to the width of the edge
with its key, or a new edge with the width at hand. -/
theorem EdgeMap.draw {s : EdgeState} (h : EdgeMap s.edges widths)
    {src dest label : Text} {w : Nat}
    (hw : ((widths (src, dest, label)).map (· + 1)).or s.penwidth = some w) :
    ∃ s', (s.strengthen src dest label).append src dest label = some s' ∧
      s'.penwidth = some w ∧ EdgeMap s'.edges
        (Function.update widths (src, dest, label) (some w)) := by
  obtain ⟨hwidth, hmap⟩ := h.strengthen src dest label
  obtain ⟨s', hs', hw', hmap'⟩ :=
    hmap.append (Function.update_self _ _ _) (hwidth.trans hw)
  rw [Function.update_idem] at hmap'
  exact ⟨s', hs', hw', hmap'⟩

/-- Nothing can be drawn when there is no width at hand. -/
theorem EdgeMap.draw_eq_none {s : EdgeState} (h : EdgeMap s.edges widths)
    {src dest label : Text}
    (hw : ((widths (src, dest, label)).map (· + 1)).or s.penwidth = none) :
    (s.strengthen src dest label).append src dest label = none := by
  rw [EdgeState.append, (h.strengthen src dest label).1, hw, Option.map_none]

/-- The edges determine the map. -/
theorem EdgeMap.eq_some_of {widths' : EdgeKey → Option Nat}
    (h : EdgeMap edges widths) (h' : EdgeMap edges widths') {k : EdgeKey}
    {w : Nat} (hw : widths k = some w) : widths' k = some w := by
  have hmem := (h.mem_iff ⟨k.1, k.2.1, k.2.2, some w⟩).mpr ⟨w, rfl, hw⟩
  obtain ⟨u, hu, hk⟩ := (h'.mem_iff _).mp hmem
  cases hu
  exact hk

/-! ### Tables -/

/-- There is one edge for each key that counts something, and it weighs what
the key counts. -/
structure EdgeTable (edges : List Edge) (n : EdgeKey → Nat) : Prop where
  onePerKey : OnePerKey edges
  drawn : ∀ k, (∃ e ∈ edges, e.key = k) ↔ 0 < n k
  weighs : ∀ e ∈ edges, e.Weighs (n e.key)

theorem EdgeTable.perm {edges' : List Edge} {n : EdgeKey → Nat}
    (h : EdgeTable edges n) (hperm : edges.Perm edges') :
    EdgeTable edges' n := by
  refine ⟨(hperm.map _).nodup_iff.mp h.onePerKey, fun k => ?_, fun e he => ?_⟩
  · rw [← h.drawn]
    simp only [hperm.mem_iff]
  · exact h.weighs e (hperm.mem_iff.mpr he)

/-- What is kept for an edge that counts `n`. -/
def widthOf (n : Nat) : Option Nat := if n = 0 then none else some (9 + n)

theorem EdgeMap.edgeTable {n : EdgeKey → Nat}
    (h : EdgeMap edges fun k => widthOf (n k)) : EdgeTable edges n := by
  have hwidth : ∀ e ∈ edges, 0 < n e.key ∧
      e.penwidth = some (9 + n e.key) := by
    intro e he
    obtain ⟨w, hw, hkey⟩ := (h.mem_iff e).mp he
    rw [widthOf] at hkey
    split at hkey
    · cases hkey
    · next hpos => exact ⟨Nat.pos_of_ne_zero hpos, hw.trans hkey.symm⟩
  refine ⟨h.onePerKey, fun k => ⟨?_, ?_⟩, fun e he => ?_⟩
  · rintro ⟨e, he, rfl⟩
    exact (hwidth e he).1
  · intro hpos
    refine ⟨⟨k.1, k.2.1, k.2.2, some (9 + n k)⟩, ?_, rfl⟩
    exact (h.mem_iff _).mpr ⟨_, rfl, if_neg hpos.ne'⟩
  · exact Edge.weighs_iff.mpr (hwidth e he).2

theorem edgeTable_iff {n : EdgeKey → Nat} :
    EdgeTable edges n ↔ EdgeMap edges fun k => widthOf (n k) := by
  refine ⟨fun h => ⟨h.onePerKey, fun e => ⟨fun he => ?_, ?_⟩⟩,
    EdgeMap.edgeTable⟩
  · have hpos := (h.drawn e.key).mp ⟨e, he, rfl⟩
    exact ⟨_, Edge.weighs_iff.mp (h.weighs e he), if_neg hpos.ne'⟩
  · rintro ⟨w, hw, hkey⟩
    have hpos : n e.key ≠ 0 := by
      intro hzero
      rw [hzero, widthOf, if_pos rfl] at hkey
      cases hkey
    obtain ⟨d, hd, hdkey⟩ := (h.drawn e.key).mpr (Nat.pos_of_ne_zero hpos)
    have hwidth := Edge.weighs_iff.mp (h.weighs d hd)
    rw [widthOf, if_neg hpos, ← hw] at hkey
    rw [hdkey] at hwidth
    exact Edge.eq_of_key_of_penwidth hdkey (hwidth.trans hkey) ▸ hd

/-! ### Counting with one key -/

/-- The edges are the table of these numbers, and a new edge with the key of
the capability would get the width that counts one. -/
structure EdgeState.Counts (key : Option EdgeKey) (s : EdgeState)
    (n : EdgeKey → Nat) : Prop where
  edges : EdgeMap s.edges fun k => widthOf (n k)
  penwidth : ∀ k ∈ key, n k = 0 → s.penwidth = some 10

/-- One more for the key. -/
def once (key : Option EdgeKey) (k : EdgeKey) : Nat :=
  if key = some k then 1 else 0

theorem update_widthOf (n : EdgeKey → Nat) (key : EdgeKey) :
    Function.update (fun k => widthOf (n k)) key (some (9 + n key + 1)) =
      fun k => widthOf (n k + once (some key) k) := by
  funext k
  by_cases hk : k = key
  · subst hk
    simp [widthOf, once, Nat.add_assoc]
  · simp [once, hk, Ne.symm hk]

/-- Each capability starts from the width that counts one. -/
theorem EdgeMap.counts {n : EdgeKey → Nat}
    (h : EdgeMap edges fun k => widthOf (n k)) (key : Option EdgeKey) :
    EdgeState.Counts key ⟨edges, some 10⟩ n :=
  ⟨h, fun _ _ _ => rfl⟩

theorem EdgeState.Counts.draw {s : EdgeState} {src dest label : Text}
    {n : EdgeKey → Nat} (h : s.Counts (some (src, dest, label)) n) :
    ∃ s', (s.strengthen src dest label).append src dest label = some s' ∧
      s'.penwidth = some (9 + n (src, dest, label) + 1) ∧
      s'.Counts (some (src, dest, label))
        fun k => n k + once (some (src, dest, label)) k := by
  have hwidth : ((widthOf (n (src, dest, label))).map (· + 1)).or
      s.penwidth = some (9 + n (src, dest, label) + 1) := by
    by_cases hn : n (src, dest, label) = 0
    · rw [hn, widthOf, if_pos rfl]
      exact h.penwidth _ rfl hn
    · rw [widthOf, if_neg hn]
      rfl
  obtain ⟨s', hs', hw, hmap⟩ := h.edges.draw hwidth
  refine ⟨s', hs', hw, ?_, fun k hk hn => ?_⟩
  · rwa [update_widthOf] at hmap
  · cases hk
    simp [once] at hn

end Chericat
