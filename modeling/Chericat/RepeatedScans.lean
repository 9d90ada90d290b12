import Chericat.CompartQuotient
import Chericat.Rescan
import Chericat.TwoComparts

/-!
The graphs of a process that is scanned again and again into one database.
Every row is there once for each scan, and an edge is drawn for pairs and
triples of rows.
-/

namespace Chericat

open Numeral SqlLike

/-! ### Copies of a list -/

section Copies

variable {α β : Type*}

/-- The list, `n` times over. -/
def copies (n : Nat) (as : List α) : List α := (List.replicate n as).flatten

variable (n : Nat) (as : List α)

theorem copies_succ : copies (n + 1) as = as ++ copies n as := by
  rw [copies, List.replicate_succ, List.flatten_cons]
  rfl

theorem copies_succ' : copies (n + 1) as = copies n as ++ as := by
  simp [copies, List.replicate_succ']

theorem countP_copies (p : α → Bool) :
    (copies n as).countP p = n * as.countP p := by
  induction n with
  | zero => simp [copies]
  | succ n ih =>
      rw [copies_succ, List.countP_append, ih]
      ring

theorem sum_map_copies (f : α → Nat) :
    ((copies n as).map f).sum = n * (as.map f).sum := by
  induction n with
  | zero => simp [copies]
  | succ n ih =>
      rw [copies_succ, List.map_append, List.sum_append, ih]
      ring

theorem map_copies (f : α → β) :
    (copies n as).map f = copies n (as.map f) := by
  rw [copies, copies, List.map_flatten, List.map_replicate]

theorem filter_copies (p : α → Bool) :
    (copies n as).filter p = copies n (as.filter p) := by
  rw [copies, copies, List.filter_flatten, List.map_replicate]

variable {n as}

theorem mem_copies (hn : 0 < n) {a : α} : a ∈ copies n as ↔ a ∈ as := by
  simp [copies, hn.ne']

theorem find_copies (hn : 0 < n) (p : α → Bool) :
    (copies n as).find? p = as.find? p := by
  obtain ⟨m, rfl⟩ := Nat.exists_eq_succ_of_ne_zero hn.ne'
  rw [Nat.succ_eq_add_one, copies_succ, List.find?_append]
  cases hfind : as.find? p with
  | some a => rfl
  | none =>
      rw [Option.none_or, List.find?_eq_none]
      intro a ha
      rw [copies, List.mem_flatten] at ha
      obtain ⟨bs, hbs, ha⟩ := ha
      rw [List.eq_of_mem_replicate hbs] at ha
      exact List.find?_eq_none.1 hfind a ha

theorem head_copies (hn : 0 < n) : (copies n as).head? = as.head? := by
  obtain ⟨m, rfl⟩ := Nat.exists_eq_succ_of_ne_zero hn.ne'
  rw [Nat.succ_eq_add_one, copies_succ]
  cases as with
  | nil => simp [copies]
  | cons a as => rfl

theorem perm_eraseDups [BEq α] [LawfulBEq α] (hn : 0 < n) :
    (copies n as).eraseDups.Perm as.eraseDups := by
  rw [List.perm_ext_iff_of_nodup (Steps.nodup_eraseDups _)
    (Steps.nodup_eraseDups _)]
  intro a
  rw [List.mem_eraseDups, List.mem_eraseDups, mem_copies hn]

end Copies

/-- The rows of `vm` and `cap_info` are there `n` times. -/
structure Copied (n : Nat) (db db' : Db) : Prop where
  vm : db'.vm = copies n db.vm
  capInfo : db'.capInfo = copies n db.capInfo

namespace Copied

variable {q : Quoted} {n : Nat} {db db' : Db}

/-! ### What does not change -/

theorem rowsLike_eq (h : Copied n db db') {path : Text}
    (hquote : apostrophe ∉ path) : rowsLike q db' path =
      some (copies n (db.vm.filter fun v => like (within path) v.mmapPath)) := by
  rw [rowsLike, if_neg hquote, h.vm, filter_copies]

theorem rangesOf_copies (h : Copied n db db') {path : Text}
    (hquote : apostrophe ∉ path) :
    rangesOf q db' path = copies n (rangesOf q db path) := by
  rw [rangesOf, rangesOf, h.rowsLike_eq hquote, rowsLike, if_neg hquote]
  rfl

theorem compartOf_eq (h : Copied n db db') (hn : 0 < n) {path : Text}
    (hquote : apostrophe ∉ path) :
    compartOf q db' path = compartOf q db path := by
  rw [compartOf, compartOf, h.rowsLike_eq hquote, rowsLike, if_neg hquote]
  simp only [Option.bind_eq_bind, Option.bind_some, head_copies hn]

theorem capPathLabel_eq (h : Copied n db db') (hn : 0 < n) (path : Text) :
    capPathLabel db' path = capPathLabel db path := by
  rw [capPathLabel, capPathLabel, h.vm, find_copies hn]

theorem pathLabel_eq (h : Copied n db db') (hn : 0 < n) {path : Text}
    (hquote : apostrophe ∉ path) :
    pathLabel path (rangesOf q db' path) =
      pathLabel path (rangesOf q db path) := by
  rw [h.rangesOf_copies hquote, pathLabel, pathLabel, head_copies hn]

theorem fullGraphPaths_perm (h : Copied n db db') (hn : 0 < n) :
    (fullGraphPaths db').Perm (fullGraphPaths db) := by
  rw [fullGraphPaths, fullGraphPaths, h.vm, map_copies]
  exact perm_eraseDups hn

theorem compartIds_perm (h : Copied n db db') (hn : 0 < n) :
    (compartIds db').Perm (compartIds db) := by
  rw [compartIds, compartIds, h.vm, map_copies]
  exact perm_eraseDups hn

theorem compartPaths_perm (h : Copied n db db') (hn : 0 < n) (id : Int) :
    (compartPaths db' id).Perm (compartPaths db id) := by
  rw [compartPaths, compartPaths, h.vm, filter_copies, map_copies]
  exact perm_eraseDups hn

theorem plainTables (h : Copied n db db') (hn : 0 < n)
    (hplain : PlainTables db) : PlainTables db' := by
  constructor
  · intro cap hcap
    rw [h.capInfo, mem_copies hn] at hcap
    obtain ⟨v, hv, hpath⟩ := hplain.located cap hcap
    refine ⟨v, ?_, hpath⟩
    rwa [h.vm, mem_copies hn]
  · intro v hv
    rw [h.vm, mem_copies hn] at hv
    exact hplain.quotes v hv

/-! ### What is multiplied -/

/-- A capability and a path meet as often as there are copies. -/
theorem countP_rangesOf (h : Copied n db db') {path : Text}
    (hquote : apostrophe ∉ path) (p : VmInfo → Bool) :
    (rangesOf q db' path).countP p = n * (rangesOf q db path).countP p := by
  rw [h.rangesOf_copies hquote, countP_copies]

theorem fullGraphCount_eq (h : Copied n db db') (hn : 0 < n)
    (hplain : PlainTables db) (k : EdgeKey) :
    fullGraphCount q db' k = n ^ 2 * fullGraphCount q db k := by
  have hpath : ∀ path ∈ fullGraphPaths db, (db'.capInfo.map fun cap =>
      (rangesOf q db' path).countP fun r =>
        Hit cap path r ∧ fullGraphKey q db' path cap = some k).sum =
      n ^ 2 * (db.capInfo.map fun cap => (rangesOf q db path).countP fun r =>
        Hit cap path r ∧ fullGraphKey q db path cap = some k).sum := by
    intro path hmem
    obtain ⟨v, hv, rfl⟩ := mem_fullGraphPaths.1 hmem
    have hquote := hplain.quotes v hv
    have hkey : ∀ cap, fullGraphKey q db' v.mmapPath cap =
        fullGraphKey q db v.mmapPath cap := by
      intro cap
      rw [fullGraphKey, fullGraphKey, h.capPathLabel_eq hn,
        h.pathLabel_eq hn hquote]
    simp only [h.capInfo, sum_map_copies, h.countP_rangesOf hquote, hkey,
      List.sum_map_mul_left]
    ring
  rw [fullGraphCount_eq_sum, fullGraphCount_eq_sum,
    ((h.fullGraphPaths_perm hn).map _).sum_eq, List.map_congr_left hpath,
    List.sum_map_mul_left]

theorem compartCount_eq (h : Copied n db db') (hn : 0 < n)
    (hplain : PlainTables db) (k : EdgeKey) :
    compartCount q db' k = n ^ 2 * compartCount q db k := by
  have hkey : ∀ cap ∈ db.capInfo, ∀ id,
      compartKey q db' id cap = compartKey q db id cap := by
    intro cap hcap id
    obtain ⟨v, hv, hpath⟩ := hplain.located cap hcap
    rw [compartKey, compartKey, h.compartOf_eq hn]
    exact hpath ▸ hplain.quotes v hv
  have hloops : ∀ db : Db, compartCount q db k =
      ((compartIds db).map fun id => ((compartPaths db id).map fun path =>
        (db.capInfo.map fun cap => (rangesOf q db path).countP fun r =>
          Hit cap path r ∧ compartKey q db id cap = some k).sum).sum).sum := by
    intro db
    simp only [compartCount, compartMatches, List.countP_flatMap,
      Function.comp_def, List.countP_map, CompartMatch.Passes]
    rfl
  have hpath : ∀ id, ∀ path ∈ compartPaths db id,
      (db'.capInfo.map fun cap => (rangesOf q db' path).countP fun r =>
        Hit cap path r ∧ compartKey q db' id cap = some k).sum =
      n ^ 2 * (db.capInfo.map fun cap => (rangesOf q db path).countP fun r =>
        Hit cap path r ∧ compartKey q db id cap = some k).sum := by
    intro id path hmem
    obtain ⟨v, hv, rfl⟩ :=
      mem_fullGraphPaths.1 (mem_fullGraphPaths_of_compartPaths hmem)
    simp only [h.capInfo, sum_map_copies, h.countP_rangesOf (hplain.quotes v hv)]
    rw [List.sum_map_mul_left, ← Nat.mul_assoc, ← Nat.pow_two]
    refine congrArg (_ * List.sum ·) (List.map_congr_left fun cap hcap => ?_)
    simp only [hkey cap hcap]
  have hid : ∀ id, ((compartPaths db' id).map fun path =>
      (db'.capInfo.map fun cap => (rangesOf q db' path).countP fun r =>
        Hit cap path r ∧ compartKey q db' id cap = some k).sum).sum =
      n ^ 2 * ((compartPaths db id).map fun path =>
        (db.capInfo.map fun cap => (rangesOf q db path).countP fun r =>
          Hit cap path r ∧ compartKey q db id cap = some k).sum).sum := by
    intro id
    rw [((h.compartPaths_perm hn id).map _).sum_eq,
      List.map_congr_left (hpath id), List.sum_map_mul_left]
  rw [hloops, hloops, ((h.compartIds_perm hn).map _).sum_eq]
  simp only [hid, List.sum_map_mul_left]

/-- The blocks of the capability are copied too. -/
theorem compartRefs_eq (h : Copied n db db') (a b : Int) :
    compartRefs db' a b = n ^ 3 * compartRefs db a b := by
  have hown : ∀ cap, ownBlocks db' a cap = n * ownBlocks db a cap := by
    intro cap
    rw [ownBlocks, ownBlocks, compartRanges, h.vm, filter_copies, countP_copies]
    rfl
  have hreached : ∀ cap,
      reachedRanges db' b cap = n * reachedRanges db b cap := by
    intro cap
    rw [reachedRanges, reachedRanges, compartRanges, h.vm, filter_copies,
      countP_copies]
    rfl
  have hcap : ∀ cap, n * ownBlocks db a cap * (n * reachedRanges db b cap) =
      n ^ 2 * (ownBlocks db a cap * reachedRanges db b cap) := by
    intro cap
    ring
  rw [compartRefs, compartRefs, h.capInfo, sum_map_copies]
  simp only [hown, hreached, hcap, List.sum_map_mul_left]
  ring

theorem twoCompartsCount_eq (h : Copied n db db') (c1 c2 : Int)
    (src dest : Text) : twoCompartsCount db' c1 c2 src dest =
      n ^ 3 * twoCompartsCount db c1 c2 src dest := by
  simp only [twoCompartsCount, h.compartRefs_eq, Nat.mul_add, mul_ite,
    Nat.mul_zero]

end Copied

/-! ### Scans of one process -/

/-- The database after `n` scans of a process that does not change. -/
def rescanned (t : Target) (n : Nat) : Db := (dbScanned t)^[n] Db.empty

theorem rescanned_copied {t : Target} (hclean : t.Clean) (n : Nat) :
    Copied n (dbScanned t Db.empty) (rescanned t n) := by
  have hvm : ∀ db, (dbScanned t db).vm =
      db.vm.map (sectionColumns (scanStatements t)) ++
        (dbAfter t Db.empty).vm := by
    intro db
    rw [(sameRows_dbScanned hclean db).vm]
    simp only [dbAfter, runAll_eq]
    exact foldl_runVm _ _
  have hcaps : ∀ db, (dbScanned t db).capInfo =
      db.capInfo ++ (dbAfter t Db.empty).capInfo := by
    intro db
    rw [(sameRows_dbScanned hclean db).capInfo]
    simp only [dbAfter, runAll_eq, Db.empty, List.nil_append]
  induction n with
  | zero => exact ⟨rfl, rfl⟩
  | succ n ih =>
      have hnext : rescanned t (n + 1) = dbScanned t (rescanned t n) :=
        Function.iterate_succ_apply' _ _ _
      constructor
      · rw [hnext, hvm, ih.vm, (sameRows_dbScanned hclean Db.empty).vm,
          map_copies, sectionColumns_own_rows, copies_succ']
      · rw [hnext, hcaps, ih.capInfo,
          (sameRows_dbScanned hclean Db.empty).capInfo, copies_succ']

/-! ### The graphs -/

/-- The number shown by the edge with these ends, if there is one. -/
def Graph.endsCount (g : Graph) (src dest : Text) : Nat :=
  ((g.edges.find? fun e => e.joins src dest).map Edge.count).getD 0

theorem EndsTable.endsCount_eq {g : Graph} {n : Text → Text → Nat}
    (h : EndsTable g.edges n) (src dest : Text) :
    g.endsCount src dest = n src dest := by
  rw [Graph.endsCount]
  cases hfind : g.edges.find? fun e => e.joins src dest with
  | none =>
      have hnone : ¬ ∃ e ∈ g.edges, e.src = src ∧ e.dest = dest := by
        rintro ⟨e, he, hsrc, hdest⟩
        have hne := List.find?_eq_none.1 hfind e he
        simp [Edge.joins, hsrc, hdest] at hne
      rw [h.drawn, Nat.pos_iff_ne_zero, not_not] at hnone
      rw [hnone]
      rfl
  | some e =>
      have hmem := List.mem_of_find?_eq_some hfind
      obtain ⟨hsrc, hdest⟩ : e.src = src ∧ e.dest = dest := by
        simpa [Edge.joins] using List.find?_some hfind
      have hweighs := Edge.weighs_iff.1 (h.weighs e hmem)
      rw [hsrc, hdest] at hweighs
      simp [Edge.count, hweighs]

/-- What the graphs count grows with the square of the number of copies, and
with its cube where blocks are joined too, in whatever order the joins give
their rows. -/
structure Multiplied (q : Quoted) (n : Nat) (db db' : Db) : Prop where
  libraries : ∃ g g', genFullGraph q db = some g ∧
    genFullGraph q db' = some g' ∧ ∀ k, g'.count k = n ^ 2 * g.count k
  comparts : ∃ g g', showComparts q db = some g ∧
    showComparts q db' = some g' ∧ ∀ k, g'.count k = n ^ 2 * g.count k
  twoComparts : ∀ c1 c2 caps1 caps2 caps1' caps2',
    caps1.Perm (joinedCaps db c1) → caps2.Perm (joinedCaps db c2) →
    caps1'.Perm (joinedCaps db' c1) → caps2'.Perm (joinedCaps db' c2) →
    ∃ g g', showCapsBetweenTwoComparts db c1 c2 caps1 caps2 = some g ∧
      showCapsBetweenTwoComparts db' c1 c2 caps1' caps2' = some g' ∧
      ∀ src dest, g'.endsCount src dest = n ^ 3 * g.endsCount src dest

theorem Copied.multiplied (q : Quoted) {n : Nat} {db db' : Db}
    (h : Copied n db db') (hn : 0 < n) (hplain : PlainTables db) :
    Multiplied q n db db' := by
  have hplain' := h.plainTables hn hplain
  refine ⟨?_, ?_, ?_⟩
  · obtain ⟨g, hg, htable⟩ := (genFullGraph_spec q db).1 hplain.labelled
    obtain ⟨g', hg', htable'⟩ := (genFullGraph_spec q db').1 hplain'.labelled
    refine ⟨g, g', hg, hg', fun k => ?_⟩
    rw [htable.graph_count, htable'.graph_count]
    exact h.fullGraphCount_eq hn hplain k
  · obtain ⟨g, hg, htable, _⟩ := (showComparts_weights q db).1
      (hplain.allSearched fun path => List.Subset.refl path)
    obtain ⟨g', hg', htable', _⟩ := (showComparts_weights q db').1
      (hplain'.allSearched fun path => List.Subset.refl path)
    refine ⟨g, g', hg, hg', fun k => ?_⟩
    rw [htable.graph_count, htable'.graph_count]
    exact h.compartCount_eq hn hplain k
  · intro c1 c2 caps1 caps2 caps1' caps2' h1 h2 h1' h2'
    obtain ⟨g, hg, htable, _⟩ := twoComparts_shows db c1 c2 h1 h2
    obtain ⟨g', hg', htable', _⟩ := twoComparts_shows db' c1 c2 h1' h2'
    refine ⟨g, g', hg, hg', fun src dest => ?_⟩
    rw [htable.endsCount_eq, htable'.endsCount_eq]
    exact h.twoCompartsCount_eq c1 c2 src dest

/-- After `n` scans of one process every edge of both graphs counts `n ^ 2`
times what it counts after one scan, and `n ^ 3` times in the graph of two
compartments. -/
theorem rescans_multiply (q : Quoted) {t : Target} (hclean : t.Clean)
    (hscan : (scanMem t).outcome = .ok ⟨⟩)
    (hquotes : ∀ v ∈ (dbScanned t Db.empty).vm, apostrophe ∉ v.mmapPath)
    {n : Nat} (hn : 0 < n) :
    Multiplied q n (dbScanned t Db.empty) (rescanned t n) :=
  (rescanned_copied hclean n).multiplied q hn
    (plainTables_of_scan hclean hscan hquotes)

/-- The edge from the stack of this process, after three scans. -/
theorem lsTarget_rescanned :
    Multiplied noQuotes 3 (dbScanned lsTarget Db.empty)
        (rescanned lsTarget 3) ∧
      (genFullGraph noQuotes (rescanned lsTarget 3)).map Graph.edges =
        some [⟨"Stack (0x7f000)".toList, lsPath, "rwRW".toList,
          some (9 + 3 ^ 2)⟩] := by
  have hscanned : dbScanned lsTarget = dbAfter lsTarget :=
    funext lsTarget_scanned
  refine ⟨rescans_multiply noQuotes lsTarget_clean (by decide +kernel) ?_
    (by decide), ?_⟩
  · rw [hscanned]
    decide +kernel
  · rw [rescanned, hscanned]
    decide +kernel

end Chericat
