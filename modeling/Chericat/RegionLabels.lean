import Chericat.CapPaths
import Chericat.FullGraph

/-!
The ends of the edges of the full graph, and the nodes.  The label of a region
is computed twice, once from the rows that match its name and once from those
that have it.
-/

namespace Chericat

open SqlLike

section Labels

variable (q : Quoted) (db : Db)

/-- The source of every edge has the label that its node is declared with. -/
def SourcesDeclared : Prop :=
  ∀ t ∈ fullGraphTriples q db, Hit t.cap t.path t.range →
    capPathLabel db t.cap.capLocPath =
      pathLabel t.cap.capLocPath (rangesOf q db t.cap.capLocPath)

/-- The first block that matches the name as a pattern starts where the first
one does that has this name. -/
def FirstBlocksAgree (path : Text) : Prop :=
  (db.vm.find? fun v => like (within path) v.mmapPath).map (·.startAddr) =
    (db.vm.find? (·.mmapPath = path)).map (·.startAddr)

/-- No block before the first one with this name matches the name as a pattern
and starts elsewhere, unless another match before it starts where that one
does. -/
def NamedFirst (path : Text) : Prop :=
  ∀ (before : List VmInfo) (u : VmInfo) (between : List VmInfo) (v : VmInfo)
    (after : List VmInfo), db.vm = before ++ u :: (between ++ v :: after) →
    v.mmapPath = path → (∀ w ∈ before ++ u :: between, w.mmapPath ≠ path) →
    like (within path) u.mmapPath = true → u.startAddr ≠ v.startAddr →
    ∃ w ∈ before, like (within path) w.mmapPath = true ∧
      w.startAddr = v.startAddr

end Labels

variable {q : Quoted} {db : Db}

/-! ### The nodes -/

@[simp] theorem pathNode_id (path label : Text) :
    (pathNode path label).id = label := by
  rw [pathNode]
  split <;> rfl

/-- The node of the path has been added. -/
def Declares (q : Quoted) (db : Db) (path : Text) (g : Graph) : Prop :=
  ∃ label, pathLabel path (rangesOf q db path) = some label ∧
    pathNode path label ∈ g.nodes

theorem fullGraphPath_eq_some {g g' : Graph} {path : Text}
    (h : fullGraphPath q db g path = some g') :
    ∃ label, pathLabel path (rangesOf q db path) = some label ∧
      g'.nodes = g.nodes ++ [pathNode path label] := by
  simp only [fullGraphPath, Option.bind_eq_bind, Option.bind_eq_some_iff,
    Option.some.injEq] at h
  obtain ⟨ranges, hranges, label, hlabel, edges, _, rfl⟩ := h
  exact ⟨label, by rw [rangesOf_eq hranges, hlabel], rfl⟩

theorem genFullGraph_declares {g : Graph} (h : genFullGraph q db = some g) :
    ∀ path ∈ fullGraphPaths db, Declares q db path g := by
  refine Steps.run_leaves ?_ ?_ h
  · intro g path g' hstep
    obtain ⟨label, hlabel, hnodes⟩ := fullGraphPath_eq_some hstep
    exact ⟨label, hlabel, by simp [hnodes]⟩
  · rintro g path g' _ ⟨label, hlabel, hmem⟩ hstep
    obtain ⟨_, _, hnodes⟩ := fullGraphPath_eq_some hstep
    exact ⟨label, hlabel, by simp [hnodes, hmem]⟩

/-! ### The ends of the edges -/

theorem regionLabel_inj {path a b : Text} :
    regionLabel path a = regionLabel path b ↔ a = b := by
  simp [regionLabel]

theorem map_regionLabel_eq_iff {path : Text} {u v : Option VmInfo} :
    (u.map fun r => regionLabel path r.startAddr) =
        (v.map fun r => regionLabel path r.startAddr) ↔
      u.map (·.startAddr) = v.map (·.startAddr) := by
  cases u <;> cases v <;> simp [regionLabel_inj]

theorem sourceDeclared_iff {path : Text} :
    capPathLabel db path = pathLabel path (rangesOf q db path) ↔
      (isRegion path = true → FirstBlocksAgree db path) := by
  rw [capPathLabel, pathLabel]
  by_cases hregion : isRegion path = true
  · simp only [hregion, if_true, true_imp_iff, FirstBlocksAgree,
      rangesOf_region hregion, List.head?_filter]
    rw [map_regionLabel_eq_iff, eq_comm]
  · simp [hregion]

/-- The first element that passes one test agrees with the first one that also
passes a stricter one, unless an element between them does not and is not
preceded by one that does. -/
theorem map_find?_eq_iff {α β : Type} {p q : α → Bool} {f : α → β}
    {l : List α} {v : α} (hv : l.find? q = some v)
    (hpass : ∀ a, q a = true → p a = true) :
    (l.find? p).map f = some (f v) ↔
      ∀ (before : List α) (u : α) (between after : List α),
        l = before ++ u :: (between ++ v :: after) →
        (∀ w ∈ before ++ u :: between, q w = false) → p u = true →
        f u ≠ f v → ∃ w ∈ before, p w = true ∧ f w = f v := by
  obtain ⟨hqv, front, rest, hsplit, hfront⟩ :=
    List.find?_eq_some_iff_append.mp hv
  constructor
  · intro hfirst before u between after hl _ hpu hne
    obtain ⟨w, hw, hsame⟩ := Option.map_eq_some_iff.mp hfirst
    rw [hl, List.find?_append] at hw
    rcases hbefore : before.find? p with - | w'
    · rw [hbefore, Option.none_or, List.find?_cons_of_pos hpu] at hw
      cases hw
      exact absurd hsame hne
    · rw [hbefore, Option.some_or] at hw
      cases hw
      exact ⟨w, List.mem_of_find?_eq_some hbefore, List.find?_some hbefore,
        hsame⟩
  · intro h
    rcases hfind : front.find? p with - | u
    · rw [hsplit, List.find?_append, hfind, Option.none_or,
        List.find?_cons_of_pos (hpass v hqv), Option.map_some]
    · obtain ⟨hpu, before, between, rfl, hnone⟩ :=
        List.find?_eq_some_iff_append.mp hfind
      rw [hsplit, List.find?_append, hfind, Option.some_or, Option.map_some,
        Option.some.injEq]
      by_contra hne
      obtain ⟨w, hw, hpw, _⟩ := h before u between rest
        (by rw [hsplit, List.append_assoc, List.cons_append])
        (fun w hw => by simpa using hfront w hw) hpu hne
      simpa [hpw] using hnone w hw

theorem firstBlocksAgree_iff {path : Text}
    (hnamed : ∃ v ∈ db.vm, v.mmapPath = path) :
    FirstBlocksAgree db path ↔ NamedFirst db path := by
  obtain ⟨v, hv⟩ : ∃ v, db.vm.find? (·.mmapPath = path) = some v := by
    rw [← Option.isSome_iff_exists, List.find?_isSome]
    simpa using hnamed
  have hpath : v.mmapPath = path := by
    simpa using List.find?_some hv
  have hmatches : ∀ u : VmInfo, decide (u.mmapPath = path) = true →
      like (within path) u.mmapPath = true := by
    intro u hu
    rw [of_decide_eq_true hu]
    exact like_within_self path
  rw [FirstBlocksAgree, hv, Option.map_some, map_find?_eq_iff hv hmatches]
  simp only [decide_eq_false_iff_not]
  constructor
  · intro h before u between v' after hvm hv' hnone
    have hfirst : db.vm.find? (·.mmapPath = path) = some v' := by
      rw [List.find?_eq_some_iff_append]
      exact ⟨decide_eq_true hv', before ++ u :: between, after,
        by rw [hvm, List.append_assoc, List.cons_append],
        fun w hw => by simpa using hnone w hw⟩
    cases hv.symm.trans hfirst
    exact h before u between after hvm hnone
  · exact fun h before u between after hvm => h before u between v after hvm hpath

theorem closed_of_sourcesDeclared (hlocated : ∀ cap ∈ db.capInfo,
      ∃ v ∈ db.vm, v.mmapPath = cap.capLocPath)
    (h : SourcesDeclared q db) {g : Graph} (hg : genFullGraph q db = some g) :
    g.Closed := by
  have hdeclares := genFullGraph_declares hg
  have htable := (genFullGraph_edgeTable hg).2
  intro e he
  obtain ⟨t, ht, hhit, hkey⟩ := fullGraphCount_pos_iff.mp
    ((htable.drawn e.key).mp ⟨e, he, rfl⟩)
  simp only [fullGraphKey, Option.bind_eq_bind, Option.bind_eq_some_iff,
    Option.some.injEq, Edge.key, Prod.mk.injEq] at hkey
  obtain ⟨src, hsrc, dest, hdest, hs, hd, _⟩ := hkey
  obtain ⟨hpath, hcap, _⟩ := mem_fullGraphTriples.mp ht
  constructor
  · obtain ⟨label, hlabel, hnode⟩ := hdeclares t.cap.capLocPath
      (mem_fullGraphPaths.mpr (hlocated t.cap hcap))
    rw [h t ht hhit, hlabel, Option.some.injEq] at hsrc
    exact ⟨_, hnode, by rw [pathNode_id, hsrc, hs]⟩
  · obtain ⟨label, hlabel, hnode⟩ := hdeclares t.path hpath
    rw [hlabel, Option.some.injEq] at hdest
    exact ⟨_, hnode, by rw [pathNode_id, hdest, hd]⟩

/-- In the full graph of a scan every edge leads from a declared node to
another one, and the labels of its sources are those of their nodes, if and
only if for each region that is a source no block before the first one of this
name matches the name and starts elsewhere. -/
theorem fullGraphClosed_iff (q : Quoted) {t : Target} (hclean : t.Clean)
    (hscan : (scanMem t).outcome = .ok ⟨⟩) :
    (∀ g, genFullGraph q (dbScanned t Db.empty) = some g →
        g.Closed ∧ SourcesDeclared q (dbScanned t Db.empty)) ↔
      ((∀ v ∈ (dbScanned t Db.empty).vm,
          (rowsLike q (dbScanned t Db.empty) v.mmapPath).isSome) →
        ∀ u ∈ fullGraphTriples q (dbScanned t Db.empty),
          Hit u.cap u.path u.range → isRegion u.cap.capLocPath = true →
            NamedFirst (dbScanned t Db.empty) u.cap.capLocPath) := by
  have hlocated := scan_located hclean hscan
  have hfirst {u : Triple} (hu : u ∈ fullGraphTriples q (dbScanned t Db.empty)) :=
    firstBlocksAgree_iff (hlocated u.cap (mem_fullGraphTriples.mp hu).2.1)
  constructor
  · intro h hanswered u hu hhit hregion
    obtain ⟨g, hg, _⟩ := (genFullGraph_spec q (dbScanned t Db.empty)).1
      ((labelled_iff hlocated).mpr hanswered)
    exact (hfirst hu).1 (sourceDeclared_iff.mp ((h g hg).2 u hu hhit) hregion)
  · intro h g hg
    have hanswered := (labelled_iff hlocated).mp (genFullGraph_edgeTable hg).1
    have hdeclared : SourcesDeclared q (dbScanned t Db.empty) :=
      fun u hu hhit => sourceDeclared_iff.mpr fun hregion =>
        (hfirst hu).2 (h hanswered u hu hhit hregion)
    exact ⟨closed_of_sourcesDeclared hlocated hdeclared hg, hdeclared⟩

/-- No other block of this process matches the name of the stack. -/
theorem fullGraph_of_ls_closed :
    ∃ g, genFullGraph noQuotes (dbScanned lsTwiceTarget Db.empty) = some g ∧
      g.edges.map Edge.src = ["Stack (0x7f000)".toList] ∧
      g.Closed ∧
        SourcesDeclared noQuotes (dbScanned lsTwiceTarget Db.empty) := by
  have hgraph : (genFullGraph noQuotes (dbScanned lsTwiceTarget Db.empty)).map
      (fun g => g.edges.map Edge.src) = some ["Stack (0x7f000)".toList] := by
    rw [lsTwiceTarget_scanned]
    decide +kernel
  obtain ⟨g, hg, hsrc⟩ := Option.map_eq_some_iff.mp hgraph
  refine ⟨g, hg, hsrc, (fullGraphClosed_iff noQuotes lsTwiceTarget_clean
    (by decide +kernel)).mpr (fun _ u hu _ _ => ?_) g hg⟩
  rw [lsTwiceTarget_scanned] at hu ⊢
  have hstack : ∀ u ∈ fullGraphTriples noQuotes
      (dbAfter lsTwiceTarget Db.empty),
      ∀ v ∈ (dbAfter lsTwiceTarget Db.empty).vm,
        like (within u.cap.capLocPath) v.mmapPath = true →
          v.mmapPath = u.cap.capLocPath := by
    decide +kernel
  intro before r between v after hvm _ hnone hlike
  have hr : r ∈ (dbAfter lsTwiceTarget Db.empty).vm := by
    rw [hvm]
    simp
  exact absurd (hstack u hu r hr hlike) (hnone r (by simp))

def stackLib : Text := "/lib/libstack.so".toList

/-- The stack of this process holds a capability into a library whose name
contains the word. -/
def stackLibTarget : Target :=
  { lsTarget with
    vmmap := some
      [blockOf stackLib 0x40000 0x41000,
        { KinfoVmentry.sample 0x7f000 0x80000 with kveFlags := 0x40000020 }]
    getString := fun addr => ⟨[addr], some stackLib⟩ }

theorem stackLibTarget_scanned :
    dbScanned stackLibTarget Db.empty = dbAfter stackLibTarget Db.empty :=
  lsProcess_scanned _ stackLib _ (by decide +kernel) (by decide)
    (fun _ _ => rwRW_quoteFree) Db.empty

/-- The node of the stack gets the address of the library. -/
theorem stack_node_misplaced : (scanMem stackLibTarget).outcome = .ok ⟨⟩ ∧
    ∃ g, genFullGraph noQuotes (dbScanned stackLibTarget Db.empty) = some g ∧
      g.nodes.map Node.id =
        [stackLib, "Stack (0x40000)".toList] ∧
      g.edges.map Edge.src = ["Stack (0x7f000)".toList] ∧ ¬ g.Closed := by
  rw [stackLibTarget_scanned]
  have hgraph : (genFullGraph noQuotes (dbAfter stackLibTarget Db.empty)).map
      (fun g => (g.nodes.map Node.id, g.edges.map Edge.src)) =
        some ([stackLib, "Stack (0x40000)".toList],
          ["Stack (0x7f000)".toList]) := by
    decide +kernel
  obtain ⟨g, hg, hparts⟩ := Option.map_eq_some_iff.mp hgraph
  rw [Prod.mk.injEq] at hparts
  refine ⟨by decide +kernel, g, hg, hparts.1, hparts.2, fun hclosed => ?_⟩
  obtain ⟨e, he, hsrc⟩ : ∃ e ∈ g.edges, e.src = "Stack (0x7f000)".toList :=
    List.mem_map.mp (by rw [hparts.2]; exact List.mem_singleton_self _)
  obtain ⟨n, hn, hid⟩ := (hclosed e he).1
  have hmem := List.mem_map_of_mem (f := Node.id) hn
  rw [hparts.1, hid, hsrc] at hmem
  revert hmem
  decide

end Chericat
