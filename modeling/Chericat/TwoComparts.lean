import Chericat.EdgeWeights
import Chericat.Tally

/-!
The graph of two compartments, which the notebook of small graphs draws.  Its
edges are looked up by their ends alone: there is at most one for each
direction, whose weight counts rows of a join and not capabilities.
-/

namespace Chericat

open Numeral

/-! ### The graph -/

/-- A row of the join: `cap_addr` and `perms`. -/
structure DestCap where
  capAddr : Text
  perms : Text
deriving Repr, DecidableEq

/-- `SELECT start_addr, end_addr FROM vm WHERE compart_id=c`. -/
def compartRanges (db : Db) (c : Int) : List VmInfo :=
  db.vm.filter (·.compartId = c)

/-- `cap_info INNER JOIN vm ON cap_info.cap_loc_path = vm.mmap_path`, for the
rows `WHERE vm.compart_id=c`. -/
def joinedCaps (db : Db) (c : Int) : List DestCap :=
  db.capInfo.flatMap fun cap =>
    ((compartRanges db c).filter (·.mmapPath = cap.capLocPath)).map fun _ =>
      ⟨cap.capAddr, cap.perms⟩

/-- Take the first edge with the same ends out of the list. -/
def EdgeState.strengthenEnds (s : EdgeState) (src dest : Text) : EdgeState :=
  match s.edges.find? fun e => e.joins src dest with
  | some e => ⟨s.edges.erase e, e.penwidth.map (· + 1)⟩
  | none => s

def twoCompartsStep (src dest : Text) (range : VmInfo) (s : EdgeState)
    (cap : DestCap) : Option EdgeState :=
  if pointsInto cap.capAddr range.toVmEntry then
    (s.strengthenEnds src dest).append src dest cap.perms
  else some s

/-- One of the two loops: the ranges of the one compartment are gone through
with the capabilities of the other. -/
def twoCompartsLoop (src dest : Text) (caps : List DestCap)
    (edges : List Edge) (ranges : List VmInfo) : Option (List Edge) :=
  Steps.run (fun edges range =>
    (Steps.run (twoCompartsStep src dest range) ⟨edges, some 10⟩ caps).map
      EdgeState.edges) edges ranges

def twoCompartsNode (db : Db) (c : Int) (fillcolor : Text) : Node :=
  { id := decText c
    txt := decText c ++ ":".toList ++
      (((compartPaths db c).map baseName).intersperse ", ".toList).flatten
    fillcolor := fillcolor
    rank := "same".toList }

/-- The order in which SQLite joins the rows is not known: the results of the
two joins are given. -/
def showCapsBetweenTwoComparts (db : Db) (c1 c2 : Int)
    (caps1 caps2 : List DestCap) : Option Graph := do
  let edges ← twoCompartsLoop (decText c1) (decText c2) caps1 []
    (compartRanges db c2)
  let edges ← twoCompartsLoop (decText c2) (decText c1) caps2 edges
    (compartRanges db c1)
  some
    { nodes := [twoCompartsNode db c1 "lightblue".toList,
        twoCompartsNode db c2 "pink".toList]
      edges := edges }

/-! ### Edges without labels -/

def Edge.unlabelled (e : Edge) : Edge := { e with label := [] }

def EdgeState.unlabelled (s : EdgeState) : EdgeState :=
  ⟨s.edges.map Edge.unlabelled, s.penwidth⟩

theorem erase_eq_eraseP_of_find {α : Type*} [BEq α] [LawfulBEq α]
    {p : α → Bool} {as : List α} {a : α} (h : as.find? p = some a) :
    as.erase a = as.eraseP p := by
  induction as with
  | nil => cases h
  | cons b as ih =>
      rw [List.find?_cons] at h
      split at h
      · next hb =>
          cases h
          rw [List.erase_cons_head, List.eraseP_cons_of_pos hb]
      · next hb =>
          have hne : b ≠ a := by
            rintro rfl
            rw [List.find?_some h] at hb
            cases hb
          rw [List.erase_cons_tail (by simpa using hne),
            List.eraseP_cons_of_neg (by simp [hb]), ih h]

/-- Without labels, the edge is looked up by its ends and the empty label. -/
theorem EdgeState.unlabelled_strengthenEnds (s : EdgeState)
    (src dest : Text) : (s.strengthenEnds src dest).unlabelled =
      s.unlabelled.strengthen src dest [] := by
  have hjoins : (fun e : Edge => e.joins src dest && e.label = []) ∘
      Edge.unlabelled = fun e => e.joins src dest := by
    funext e
    simp [Edge.unlabelled, Edge.joins]
    rfl
  have hfind : s.unlabelled.edges.find? (fun e =>
      e.joins src dest && e.label = []) =
        (s.edges.find? fun e => e.joins src dest).map Edge.unlabelled := by
    rw [unlabelled, List.find?_map, hjoins]
  cases hfound : s.edges.find? fun e => e.joins src dest with
  | none =>
      rw [hfound, Option.map_none] at hfind
      simp only [strengthenEnds, strengthen, hfound, hfind]
  | some e =>
      rw [hfound, Option.map_some] at hfind
      simp only [strengthenEnds, strengthen, hfound, hfind]
      rw [erase_eq_eraseP_of_find hfound, erase_eq_eraseP_of_find hfind]
      simp only [unlabelled, List.eraseP_map, hjoins]
      rfl

theorem EdgeState.unlabelled_append (s : EdgeState) (src dest label : Text) :
    (s.append src dest label).map EdgeState.unlabelled =
      s.unlabelled.append src dest [] := by
  simp only [append, unlabelled, Option.map_map, Function.comp_def,
    List.map_append, List.map_cons, List.map_nil, Edge.unlabelled]

/-! ### Matches -/

/-- The edges without labels are the table of these numbers. -/
def TabledEnds (edges : List Edge) (n : EdgeKey → Nat) : Prop :=
  EdgeMap (edges.map Edge.unlabelled) fun k => widthOf (n k)

section Loops

variable (src dest : Text)

theorem twoCompartsStep_tallies (range : VmInfo) :
    Steps.Tallies (twoCompartsStep src dest range)
      (fun s n => s.unlabelled.Counts (some (src, dest, [])) n)
      (fun _ => True) fun cap k =>
        if pointsInto cap.capAddr range.toVmEntry = true ∧
          (src, dest, []) = k then 1 else 0 := by
  refine ⟨fun s n cap hs _ => ?_, fun _ _ _ _ h => absurd trivial h⟩
  rw [twoCompartsStep]
  split
  · next hpoints =>
      obtain ⟨u, hu, _, hcounts⟩ := hs.draw
      rw [← EdgeState.unlabelled_strengthenEnds,
        ← EdgeState.unlabelled_append _ _ _ cap.perms] at hu
      obtain ⟨s', hs', rfl⟩ := Option.map_eq_some_iff.1 hu
      refine ⟨s', hs', ?_⟩
      simpa only [hpoints, true_and, once, Option.some.injEq] using hcounts
  · next hpoints =>
      refine ⟨s, rfl, ?_⟩
      simpa [hpoints] using hs

/-- Each range sets the pen width anew. -/
theorem twoCompartsRange_tallies (caps : List DestCap) :
    Steps.Tallies (fun edges range =>
        (Steps.run (twoCompartsStep src dest range) ⟨edges, some 10⟩
          caps).map EdgeState.edges)
      TabledEnds (fun _ => ∀ cap ∈ caps, True) fun range k =>
        if (src, dest, []) = k then
          caps.countP fun cap => pointsInto cap.capAddr range.toVmEntry
        else 0 := by
  have hnested := Steps.Tallies.nested TabledEnds
    (fun edges => ⟨edges, some 10⟩) EdgeState.edges (fun _ => caps)
    (twoCompartsStep_tallies src dest)
    (fun _ _ _ h => h.counts _) (fun _ _ _ h => h.edges)
  have hcount : ∀ (range : VmInfo) (k : EdgeKey), (caps.map fun cap =>
      if pointsInto cap.capAddr range.toVmEntry = true ∧
        (src, dest, []) = k then 1 else 0).sum =
      if (src, dest, []) = k then
        caps.countP fun cap => pointsInto cap.capAddr range.toVmEntry
      else 0 := by
    intro range k
    rw [Steps.sum_map_ite]
    split
    · next hk => simp [hk]
    · next hk => simp [hk]
  simp only [hcount] at hnested
  exact hnested

/-- How many pairs of a range and a row of the join match. -/
def matchPairs (caps : List DestCap) (ranges : List VmInfo) : Nat :=
  (ranges.map fun range => caps.countP fun cap =>
    pointsInto cap.capAddr range.toVmEntry).sum

theorem twoCompartsLoop_spec (caps : List DestCap) (ranges : List VmInfo)
    {edges : List Edge} {n : EdgeKey → Nat} (h : TabledEnds edges n) :
    ∃ edges', twoCompartsLoop src dest caps edges ranges = some edges' ∧
      TabledEnds edges' fun k => n k +
        if (src, dest, []) = k then matchPairs caps ranges else 0 := by
  obtain ⟨edges', hrun, htabled⟩ := (twoCompartsRange_tallies src dest
    caps).run.taken edges n ranges h fun _ _ _ _ => trivial
  refine ⟨edges', hrun, ?_⟩
  have hsum : ∀ k : EdgeKey, (ranges.map fun range =>
      if (src, dest, []) = k then
        caps.countP fun cap => pointsInto cap.capAddr range.toVmEntry
      else 0).sum =
      if (src, dest, []) = k then matchPairs caps ranges else 0 := by
    intro k
    split
    · rfl
    · simp
  simpa only [hsum] using htabled

/-- The edge is drawn for a match. -/
def Edge.Matched (e : Edge) (caps : List DestCap) (ranges : List VmInfo) :
    Prop :=
  e.src = src ∧ e.dest = dest ∧ ∃ cap ∈ caps, ∃ range ∈ ranges,
    pointsInto cap.capAddr range.toVmEntry = true ∧ cap.perms = e.label

/-- Every new edge is drawn for a match, whose permissions it shows. -/
theorem twoCompartsLoop_matched {caps : List DestCap} {ranges : List VmInfo}
    {edges edges' : List Edge}
    (h : twoCompartsLoop src dest caps edges ranges = some edges') :
    ∀ e ∈ edges', e ∈ edges ∨ e.Matched src dest caps ranges := by
  refine Steps.run_induction (P := fun es : List Edge =>
    ∀ e ∈ es, e ∈ edges ∨ e.Matched src dest caps ranges) h
    (fun e he => Or.inl he) ?_
  intro done range rest u u' hranges _ hrange hu
  obtain ⟨s, hs, rfl⟩ := Option.map_eq_some_iff.1 hrange
  refine Steps.run_induction (P := fun s : EdgeState =>
    ∀ e ∈ s.edges, e ∈ edges ∨ e.Matched src dest caps ranges) hs hu ?_
  intro done' cap rest' v v' hcaps _ hstep hv
  rw [twoCompartsStep] at hstep
  split at hstep
  · next hpoints =>
      obtain ⟨w, _, rfl⟩ := Option.map_eq_some_iff.1 hstep
      intro e he
      rw [List.mem_append, List.mem_singleton] at he
      rcases he with he | rfl
      · refine hv e ?_
        rw [EdgeState.strengthenEnds] at he
        split at he
        · exact List.mem_of_mem_erase he
        · exact he
      · refine Or.inr ⟨rfl, rfl, cap, ?_, range, ?_, hpoints, rfl⟩
        · simp [hcaps]
        · simp [hranges]
  · cases hstep
    exact hv

end Loops

/-! ### What is counted -/

section Counted

variable (db : Db)

/-- The blocks of the compartment with the path of the capability. -/
def ownBlocks (c : Int) (cap : CapInfo) : Nat :=
  (compartRanges db c).countP (·.mmapPath = cap.capLocPath)

/-- The blocks of the compartment that the capability points into. -/
def reachedRanges (c : Int) (cap : CapInfo) : Nat :=
  (compartRanges db c).countP fun range =>
    pointsInto cap.capAddr range.toVmEntry

/-- A capability is counted once for each block with its path in the one
compartment and each block of the other that it points into. -/
def compartRefs (a b : Int) : Nat :=
  (db.capInfo.map fun cap => ownBlocks db a cap * reachedRanges db b cap).sum

/-- Both loops count when the compartments are the same one. -/
def twoCompartsCount (c1 c2 : Int) (src dest : Text) : Nat :=
  (if decText c1 = src ∧ decText c2 = dest then compartRefs db c1 c2 else 0) +
    if decText c2 = src ∧ decText c1 = dest then compartRefs db c2 c1 else 0

end Counted

variable {db : Db}

theorem countP_joinedCaps (a : Int) (range : VmInfo) :
    ((joinedCaps db a).countP fun cap =>
      pointsInto cap.capAddr range.toVmEntry) =
      (db.capInfo.map fun cap => ownBlocks db a cap *
        if pointsInto cap.capAddr range.toVmEntry = true then 1 else 0).sum := by
  rw [joinedCaps, List.countP_flatMap]
  refine congrArg List.sum (List.map_congr_left fun cap _ => ?_)
  rw [Function.comp_apply, List.countP_map, ownBlocks]
  by_cases hpoints : pointsInto cap.capAddr range.toVmEntry = true
  · simp [hpoints, List.countP_eq_length_filter]
  · simp [hpoints]

theorem matchPairs_joinedCaps {a : Int} {caps : List DestCap}
    (h : caps.Perm (joinedCaps db a)) (b : Int) :
    matchPairs caps (compartRanges db b) = compartRefs db a b := by
  simp only [matchPairs, h.countP_eq, countP_joinedCaps]
  rw [Steps.sum_map_sum_map, compartRefs]
  refine congrArg List.sum (List.map_congr_left fun cap _ => ?_)
  rw [List.sum_map_mul_left, Steps.sum_map_ite, reachedRanges]
  simp

/-- There is at most one edge with the same ends, and it weighs what these
count. -/
structure EndsTable (edges : List Edge) (n : Text → Text → Nat) : Prop where
  onePerEnds : (edges.map fun e => (e.src, e.dest)).Nodup
  drawn : ∀ src dest, (∃ e ∈ edges, e.src = src ∧ e.dest = dest) ↔
    0 < n src dest
  weighs : ∀ e ∈ edges, e.Weighs (n e.src e.dest)

theorem TabledEnds.endsTable {edges : List Edge} {n : EdgeKey → Nat}
    (h : TabledEnds edges n) :
    EndsTable edges fun src dest => n (src, dest, []) := by
  have htable := h.edgeTable
  refine ⟨?_, fun src dest => ?_, fun e he => ?_⟩
  · have hkeys : (edges.map Edge.unlabelled).map Edge.key =
        (edges.map fun e => (e.src, e.dest)).map fun p => (p.1, p.2, []) := by
      rw [List.map_map, List.map_map]
      rfl
    have hone := htable.onePerKey
    rw [OnePerKey, hkeys] at hone
    exact hone.of_map
  · rw [← htable.drawn]
    simp [Edge.key, Edge.unlabelled]
  · exact htable.weighs _ (List.mem_map_of_mem he)

theorem tabledEnds_nil : TabledEnds [] fun _ => 0 := edgeMap_nil

/-- There is at most one edge for each direction, with the permissions of a
match, and its weight counts the rows of the join, in whatever order they
come. -/
theorem twoComparts_shows (db : Db) (c1 c2 : Int) {caps1 caps2 : List DestCap}
    (h1 : caps1.Perm (joinedCaps db c1)) (h2 : caps2.Perm (joinedCaps db c2)) :
    ∃ g, showCapsBetweenTwoComparts db c1 c2 caps1 caps2 = some g ∧
      EndsTable g.edges (twoCompartsCount db c1 c2) ∧ g.Closed ∧
      ∀ e ∈ g.edges,
        e.Matched (decText c1) (decText c2) caps1 (compartRanges db c2) ∨
          e.Matched (decText c2) (decText c1) caps2 (compartRanges db c1) := by
  obtain ⟨edges, hedges, htabled⟩ := twoCompartsLoop_spec (decText c1)
    (decText c2) caps1 (compartRanges db c2) tabledEnds_nil
  obtain ⟨edges', hedges', htabled'⟩ := twoCompartsLoop_spec (decText c2)
    (decText c1) caps2 (compartRanges db c1) htabled
  have hmatched : ∀ e ∈ edges',
      e.Matched (decText c1) (decText c2) caps1 (compartRanges db c2) ∨
        e.Matched (decText c2) (decText c1) caps2 (compartRanges db c1) := by
    intro e he
    refine (twoCompartsLoop_matched _ _ hedges' e he).imp_left fun hold => ?_
    exact (twoCompartsLoop_matched _ _ hedges e hold).resolve_left
      List.not_mem_nil
  refine ⟨⟨[twoCompartsNode db c1 "lightblue".toList,
    twoCompartsNode db c2 "pink".toList], edges'⟩, ?_, ?_, ?_, hmatched⟩
  · simp only [showCapsBetweenTwoComparts, hedges, hedges',
      Option.bind_eq_bind, Option.bind_some]
  · have htable := htabled'.endsTable
    simp only [matchPairs_joinedCaps h1, matchPairs_joinedCaps h2,
      Nat.zero_add, Prod.mk.injEq, and_true] at htable
    exact htable
  · have hends : ∀ c ∈ [c1, c2], ∃ n ∈ [twoCompartsNode db c1
        "lightblue".toList, twoCompartsNode db c2 "pink".toList],
        n.id = decText c := by
      simp [twoCompartsNode]
    intro e he
    rcases hmatched e he with ⟨hsrc, hdest, _⟩ | ⟨hsrc, hdest, _⟩
    · rw [hsrc, hdest]
      exact ⟨hends c1 (by simp), hends c2 (by simp)⟩
    · rw [hsrc, hdest]
      exact ⟨hends c2 (by simp), hends c1 (by simp)⟩

/-- A library of compartment 1 in two blocks, with a capability into
compartment 2. -/
def twoBlocksDb : Db :=
  { Db.empty with
    vm :=
      [VmEntry.inserted ⟨"0x40000".toList, "0x41000".toList,
          "/lib/a.so".toList, 1, 5, 0, 2⟩,
        VmEntry.inserted ⟨"0x41000".toList, "0x42000".toList,
          "/lib/a.so".toList, 1, 3, 0x20, 2⟩,
        VmEntry.inserted ⟨"0x50000".toList, "0x51000".toList,
          "/lib/b.so".toList, 2, 5, 0, 2⟩]
    capInfo :=
      [⟨"0x41010".toList, "/lib/a.so".toList, "0x50010".toList,
        "rwRW".toList, "0x50000".toList, "0x51000".toList⟩] }

/-- The capability is counted for both blocks of the library. -/
theorem twoBlocks_shown :
    (∃ g, showCapsBetweenTwoComparts twoBlocksDb 1 2
        (joinedCaps twoBlocksDb 1) (joinedCaps twoBlocksDb 2) = some g ∧
      EndsTable g.edges (twoCompartsCount twoBlocksDb 1 2)) ∧
    twoCompartsCount twoBlocksDb 1 2 "1".toList "2".toList = 2 := by
  obtain ⟨g, hg, htable, _⟩ := twoComparts_shows twoBlocksDb 1 2
    (List.Perm.refl _) (List.Perm.refl _)
  exact ⟨⟨g, hg, htable⟩, by decide +kernel⟩

/-! ### Weights and capabilities -/

/-- The capability is stored in the one compartment and points into the
other. -/
def CapInfo.Crosses (db : Db) (a b : Int) (cap : CapInfo) : Prop :=
  0 < ownBlocks db a cap ∧ 0 < reachedRanges db b cap

instance (a b : Int) (cap : CapInfo) : Decidable (cap.Crosses db a b) :=
  inferInstanceAs (Decidable (_ ∧ _))

/-- No capability is missed, so none may be counted twice. -/
theorem compartRefs_eq_iff (a b : Int) :
    compartRefs db a b = db.capInfo.countP (·.Crosses db a b) ↔
      ∀ cap ∈ db.capInfo, cap.Crosses db a b →
        ownBlocks db a cap = 1 ∧ reachedRanges db b cap = 1 := by
  have hmissed : db.capInfo.countP (fun cap => cap.Crosses db a b ∧
      ownBlocks db a cap * reachedRanges db b cap = 0) = 0 := by
    rw [List.countP_eq_zero]
    intro cap _ h
    obtain ⟨hcross, hzero⟩ := of_decide_eq_true h
    exact absurd hzero (Nat.mul_pos hcross.1 hcross.2).ne'
  rw [compartRefs, Steps.sum_map_eq_countP_iff, hmissed,
    List.sum_eq_zero_iff_forall_eq_nat, List.forall_mem_map]
  refine forall₂_congr fun cap _ => ?_
  by_cases hcross : cap.Crosses db a b
  · rw [if_pos hcross, Nat.sub_eq_zero_iff_le, imp_iff_right hcross,
      ← mul_eq_one]
    exact ⟨fun hle => le_antisymm hle (Nat.mul_pos hcross.1 hcross.2), le_of_eq⟩
  · have hzero : ownBlocks db a cap * reachedRanges db b cap = 0 := by
      rw [Nat.mul_eq_zero]
      rw [CapInfo.Crosses] at hcross
      omega
    simp [hcross, hzero]

theorem compartRefs_pos {a b : Int} {cap : CapInfo} (hcap : cap ∈ db.capInfo)
    (h : cap.Crosses db a b) : 0 < compartRefs db a b := by
  rw [compartRefs, List.sum_pos_iff_exists_pos_nat]
  exact ⟨_, List.mem_map_of_mem hcap, Nat.mul_pos h.1 h.2⟩

theorem twoCompartsCount_eq {c1 c2 a b : Int} (hne : c1 ≠ c2)
    (hab : (a = c1 ∧ b = c2) ∨ (a = c2 ∧ b = c1)) :
    twoCompartsCount db c1 c2 (decText a) (decText b) = compartRefs db a b := by
  have htexts : decText c1 ≠ decText c2 := fun h => hne (decText_injective h)
  rcases hab with ⟨rfl, rfl⟩ | ⟨rfl, rfl⟩
  · simp [twoCompartsCount, htexts, htexts.symm]
  · simp [twoCompartsCount, htexts, htexts.symm]

/-- The weights between two compartments count capabilities if and only if each
of them is stored under the path of one block only and points into one
block. -/
theorem twoCompartsWeights_iff {c1 c2 : Int} (hne : c1 ≠ c2)
    {caps1 caps2 : List DestCap} (h1 : caps1.Perm (joinedCaps db c1))
    (h2 : caps2.Perm (joinedCaps db c2)) {g : Graph}
    (hg : showCapsBetweenTwoComparts db c1 c2 caps1 caps2 = some g) :
    (∀ a b, (a = c1 ∧ b = c2) ∨ (a = c2 ∧ b = c1) → ∀ e ∈ g.edges,
        e.src = decText a → e.dest = decText b →
          e.Weighs (db.capInfo.countP (·.Crosses db a b))) ↔
      ∀ a b, (a = c1 ∧ b = c2) ∨ (a = c2 ∧ b = c1) → ∀ cap ∈ db.capInfo,
        cap.Crosses db a b →
          ownBlocks db a cap = 1 ∧ reachedRanges db b cap = 1 := by
  obtain ⟨g', hg', htable, _⟩ := twoComparts_shows db c1 c2 h1 h2
  cases hg.symm.trans hg'
  refine forall₃_congr fun a b hab => ?_
  have hcount : twoCompartsCount db c1 c2 (decText a) (decText b) =
      compartRefs db a b := twoCompartsCount_eq hne hab
  rw [← compartRefs_eq_iff, ← hcount]
  constructor
  · intro h
    by_cases hdrawn : ∃ e ∈ g.edges, e.src = decText a ∧ e.dest = decText b
    · obtain ⟨e, he, hsrc, hdest⟩ := hdrawn
      have hweighs := Edge.weighs_iff.1 (htable.weighs e he)
      have hright := Edge.weighs_iff.1 (h e he hsrc hdest)
      rw [hright, hsrc, hdest, Option.some.injEq] at hweighs
      omega
    · rw [htable.drawn, hcount] at hdrawn
      rw [hcount, Nat.eq_zero_of_not_pos hdrawn, eq_comm,
        List.countP_eq_zero]
      intro cap hcap hcross
      exact hdrawn (compartRefs_pos hcap (of_decide_eq_true hcross))
  · intro h e he hsrc hdest
    rw [← h, ← hsrc, ← hdest]
    exact htable.weighs e he

/-- The weight of the only edge is not that of one capability. -/
theorem twoBlocks_counted_twice :
    ∃ g, showCapsBetweenTwoComparts twoBlocksDb 1 2
        (joinedCaps twoBlocksDb 1) (joinedCaps twoBlocksDb 2) = some g ∧
      ¬ ∀ a b, (a = 1 ∧ b = 2) ∨ (a = 2 ∧ b = 1) → ∀ e ∈ g.edges,
        e.src = decText a → e.dest = decText b →
          e.Weighs (twoBlocksDb.capInfo.countP (·.Crosses twoBlocksDb a b)) := by
  obtain ⟨g, hg, _⟩ := twoComparts_shows twoBlocksDb 1 2
    (List.Perm.refl _) (List.Perm.refl _)
  refine ⟨g, hg, fun h => ?_⟩
  have honce := (twoCompartsWeights_iff (by decide) (List.Perm.refl _)
    (List.Perm.refl _) hg).1 h 1 2 (Or.inl ⟨rfl, rfl⟩)
  revert honce
  decide +kernel

end Chericat
