import Chericat.CompartWeights
import Chericat.FullGraph
import Chericat.SharedDatabase

/-!
The graphs of a database that several scans have filled.  A scan that stopped
early has left capabilities without the block they are stored in, and looking
for that block can end the program that draws the graph.
-/

namespace Chericat

open SqlLike

variable {q : Quoted} {db : Db}

/-! ### Which databases can be drawn -/

/-- The graphs look at a range of a block's name that the capability points
into. -/
def Looked (db : Db) (cap : CapInfo) : Prop :=
  ∃ v ∈ db.vm, ∃ r ∈ db.vm, like (within v.mmapPath) r.mmapPath = true ∧
    Hit cap v.mmapPath r

/-- No query has a quote in it. -/
structure QuoteFreeTables (db : Db) : Prop where
  vm : ∀ v ∈ db.vm, apostrophe ∉ v.mmapPath
  capInfo : ∀ cap ∈ db.capInfo, apostrophe ∉ cap.capLocPath

/-- A block is stored under this very name. -/
def StoredUnder (db : Db) (path : Text) : Prop := ∃ v ∈ db.vm, v.mmapPath = path

theorem StoredUnder.matched {path : Text} (h : StoredUnder db path) :
    ∃ v ∈ db.vm, like (within path) v.mmapPath = true := by
  obtain ⟨v, hv, rfl⟩ := h
  exact ⟨v, hv, like_within_self _⟩

theorem capPathLabel_isSome_iff {path : Text} :
    (capPathLabel db path).isSome ↔
      (isRegion path = true → StoredUnder db path) := by
  rw [capPathLabel, StoredUnder]
  split
  · next hregion => simp [hregion]
  · next hregion => simp [hregion]

theorem compartOf_isSome_iff {path : Text} (h : apostrophe ∉ path) :
    (∃ i, compartOf q db path = some i) ↔
      ∃ v ∈ db.vm, like (within path) v.mmapPath = true := by
  rw [← Option.isSome_iff_exists, compartOf, rowsLike, if_neg h]
  simp

/-- The graph of all libraries needs the block of a capability only where it is
stored in a region that many processes have. -/
theorem genFullGraph_isSome_iff (h : QuoteFreeTables db) :
    (genFullGraph q db).isSome ↔ ∀ cap ∈ db.capInfo, Looked db cap →
      isRegion cap.capLocPath = true → StoredUnder db cap.capLocPath := by
  have hspec := genFullGraph_spec q db
  have hdrawn : (genFullGraph q db).isSome ↔
      ∀ path ∈ fullGraphPaths db, Labelled q db path := by
    by_cases hall : ∀ path ∈ fullGraphPaths db, Labelled q db path
    · obtain ⟨g, hg, -⟩ := hspec.1 hall
      simpa [hg] using hall
    · simpa [hspec.2 hall] using hall
  rw [hdrawn]
  constructor
  · rintro hall cap hcap ⟨v, hv, r, hr, hlike, hhit⟩
    obtain ⟨ranges, hranges, -, hsource⟩ := hall v.mmapPath
      (mem_fullGraphPaths.mpr ⟨v, hv, rfl⟩)
    rw [rowsLike, if_neg (h.vm v hv), Option.some.injEq] at hranges
    subst hranges
    exact capPathLabel_isSome_iff.1
      (hsource cap hcap r (List.mem_filter.2 ⟨hr, hlike⟩) hhit)
  · intro hall path hpath
    obtain ⟨v, hv, rfl⟩ := mem_fullGraphPaths.mp hpath
    have hranges : rowsLike q db v.mmapPath = some
        (db.vm.filter fun r => like (within v.mmapPath) r.mmapPath) := by
      rw [rowsLike, if_neg (h.vm v hv)]
    refine ⟨_, hranges, rangesOf_eq hranges ▸ pathLabel_isSome hv, ?_⟩
    intro cap hcap r hr hhit
    obtain ⟨hr, hlike⟩ := List.mem_filter.1 hr
    exact capPathLabel_isSome_iff.2
      (hall cap hcap ⟨v, hv, r, hr, hlike, hhit⟩)

/-- The graph of the compartments needs a block that matches the name. -/
theorem showComparts_isSome_iff (h : QuoteFreeTables db) :
    (showComparts q db).isSome ↔ ∀ cap ∈ db.capInfo, Looked db cap →
      ∃ v ∈ db.vm, like (within cap.capLocPath) v.mmapPath = true := by
  have hspec := @showComparts_spec q db
  have hdrawn : (showComparts q db).isSome ↔
      AllSearched q db fun path => path := by
    by_cases hall : AllSearched q db fun path => path
    · obtain ⟨g, hg, -⟩ := hspec.1 hall
      simpa [hg] using hall
    · simpa [hspec.2 hall] using hall
  rw [hdrawn]
  constructor
  · rintro hall cap hcap ⟨v, hv, r, hr, hlike, hhit⟩
    obtain ⟨ranges, hranges, hsource⟩ := hall v hv
    rw [rowsLike, if_neg (h.vm v hv), Option.some.injEq] at hranges
    subst hranges
    exact (compartOf_isSome_iff (h.capInfo cap hcap)).1
      (hsource cap hcap r (List.mem_filter.2 ⟨hr, hlike⟩) hhit)
  · intro hall v hv
    refine ⟨_, by rw [rowsLike, if_neg (h.vm v hv)], ?_⟩
    intro cap hcap r hr hhit
    obtain ⟨hr, hlike⟩ := List.mem_filter.1 hr
    exact (compartOf_isSome_iff (h.capInfo cap hcap)).2
      (hall cap hcap ⟨v, hv, r, hr, hlike, hhit⟩)

/-! ### After a sequence of scans -/

theorem mem_historyVm {jobs : List ScanJob} {path : Text} :
    (∃ v ∈ historyVm jobs, v.mmapPath = path) ↔
      ∃ j ∈ jobs, ∃ v ∈ j.own.vm, v.mmapPath = path := by
  induction jobs with
  | nil => simp [historyVm]
  | cons j later ih =>
      have hpath : ∀ v, (laterColumns later v).mmapPath = v.mmapPath :=
        fun v => rfl
      simp [historyVm, or_and_right, exists_or, ih, hpath]

section Jobs

variable {jobs : List ScanJob}

theorem storedUnder_afterScans (htexts : ∀ j ∈ jobs, j.target.Clean)
    {path : Text} : StoredUnder (afterScans jobs Db.empty) path ↔
      ∃ j ∈ jobs, ∃ v ∈ j.own.vm, v.mmapPath = path := by
  rw [StoredUnder, (historyTables htexts Db.empty).vm]
  exact mem_historyVm

theorem mem_capInfo_afterScans (htexts : ∀ j ∈ jobs, j.target.Clean)
    {cap : CapInfo} : cap ∈ (afterScans jobs Db.empty).capInfo ↔
      ∃ j ∈ jobs, cap ∈ j.own.capInfo := by
  rw [(historyTables htexts Db.empty).capInfo]
  simp [Db.empty]

/-- All statements of the scan succeed. -/
def ScanJob.Succeeds (j : ScanJob) : Prop := ∀ i, j.ok i = true

theorem succeeded_all {ok : Nat → Bool} (hok : ∀ i, ok i = true)
    (ss : List Statement) : succeeded ok ss = ss := by
  simp [succeeded, hok, List.zipIdx_map_fst]

theorem ScanJob.Succeeds.own_eq {j : ScanJob} (h : j.Succeeds) :
    j.own = dbScanned j.target Db.empty := by
  rw [ScanJob.own, dbScannedSome, succeeded_all h, dbScanned]

/-- Whether a capability of a scan was left behind by it. -/
def ScanJob.Unfinished (j : ScanJob) : Prop := ¬ (scanMem j.target).Succeeds

theorem storedUnder_of_finished (htexts : ∀ j ∈ jobs, j.target.Clean)
    {j : ScanJob} (hj : j ∈ jobs) (hall : j.Succeeds) (hdone : ¬ j.Unfinished)
    {cap : CapInfo} (hcap : cap ∈ j.own.capInfo) :
    StoredUnder (afterScans jobs Db.empty) cap.capLocPath := by
  obtain ⟨u, hscan⟩ := not_not.1 hdone
  rw [hall.own_eq] at hcap
  obtain ⟨v, hv, hpath⟩ := scan_located (htexts j hj) hscan cap hcap
  exact (storedUnder_afterScans htexts).2 ⟨j, hj, v, hall.own_eq ▸ hv, hpath⟩

/-- What holds of the capabilities of finished scans has to hold of the others
only. -/
theorem forall_capInfo_iff (htexts : ∀ j ∈ jobs, j.target.Clean)
    (hall : ∀ j ∈ jobs, j.Succeeds) {P : CapInfo → Prop}
    (hP : ∀ cap, StoredUnder (afterScans jobs Db.empty) cap.capLocPath → P cap) :
    (∀ cap ∈ (afterScans jobs Db.empty).capInfo, P cap) ↔
      ∀ j ∈ jobs, j.Unfinished → ∀ cap ∈ j.own.capInfo, P cap := by
  constructor
  · exact fun h j hj _ cap hcap =>
      h cap ((mem_capInfo_afterScans htexts).2 ⟨j, hj, hcap⟩)
  · intro h cap hcap
    obtain ⟨j, hj, hcap⟩ := (mem_capInfo_afterScans htexts).1 hcap
    by_cases hdone : j.Unfinished
    · exact h j hj hdone cap hcap
    · exact hP cap (storedUnder_of_finished htexts hj (hall j hj) hdone hcap)

end Jobs

end Chericat
