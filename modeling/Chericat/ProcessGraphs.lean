import Chericat.AddressOrder
import Chericat.CompartQuotient
import Chericat.HeldCaps

/-!
The graphs of a process.  When its memory can be read, the edges that are drawn
from the tables of a scan count the capabilities the process held when its
blocks were scanned.
-/

namespace Chericat

open Numeral SqlLike

/-! ### The capabilities of a process -/

/-- The tagged capabilities of a page that can be read. -/
def pageCaps (m : Memory) (start : ULong) : List Capability :=
  match m.tags start with
  | none => []
  | some tagsbuf =>
      (readBits m start tagsbuf).map fun b => (m.cap (bitAddress start b)).copy

/-- A block of the map, the memory that its window shows and the name that the
scan gives it. -/
structure NamedBlock where
  kivp : KinfoVmentry
  memory : Memory
  name : Text

def NamedBlock.caps (t : Target) (b : NamedBlock) : List Capability :=
  if hascap t b.kivp then
    (pageStarts b.kivp.kveStart b.kivp.kveEnd).flatMap (pageCaps b.memory)
  else []

/-- Both bounds belong to the range that the graphs test. -/
def NamedBlock.Reached (b : NamedBlock) (a : ULong) : Prop :=
  b.kivp.kveStart ≤ a ∧ a ≤ b.kivp.kveEnd

instance (b : NamedBlock) (a : ULong) : Decidable (b.Reached a) :=
  inferInstanceAs (Decidable (_ ∧ _))

/-- An entry of the map as its row describes it. -/
def namedBlock (t : Target) (p : (KinfoVmentry × Nat) × VmEntry) :
    NamedBlock :=
  ⟨p.1.1, t.memory p.1.2, p.2.mmapPath⟩

section References

variable (t : Target) (map : List KinfoVmentry)

def namedBlocks : List NamedBlock :=
  (map.zipIdx.zip ((dbScanned t Db.empty).vm.map VmInfo.toVmEntry)).map
    (namedBlock t)

/-- The blocks, among those whose name has the path in it, that the capability
points into. -/
def reachedBlocks (dest : Text) (cap : Capability) : Nat :=
  ((namedBlocks t map).filter fun d => like (within dest) d.name).countP
    fun d => d.Reached cap.address

/-- How often a capability with these permissions in a block of the one name
points into a block of the other. -/
def references (src dest perms : Text) : Nat :=
  if sameLibrary src dest then 0
  else
    ((namedBlocks t map).map fun b => ((b.caps t).map fun cap =>
      if b.name = src ∧ cap.perms = perms then reachedBlocks t map dest cap
      else 0).sum).sum

/-- Nothing that is known to go wrong does so: the texts of the statements are
read as they are meant, what is tagged is captured if it can be read, the texts
of addresses are in the order of the numbers, and names have no apostrophes and
are no labels. -/
structure ScanClean : Prop where
  clean : t.Clean
  map_ok : MapOk map
  reads : ∀ e ∈ map.zipIdx, hascap t e.1 →
    ∀ start ∈ pageStarts e.1.kveStart e.1.kveEnd, ∀ tagsbuf,
      (t.memory e.2).tags start = some tagsbuf →
        CapturesReads (t.memory e.2) start tagsbuf
  ordered : ∀ b ∈ namedBlocks t map, ∀ cap ∈ b.caps t, ∀ kivp ∈ map,
    OrderKept kivp.kveStart.toNat kivp.kveEnd.toNat cap.address.toNat
  quotes : ∀ b ∈ namedBlocks t map, apostrophe ∉ b.name
  labels : ∀ b ∈ namedBlocks t map, NoLabel b.name

end References

/-! ### Rows and capabilities -/

variable {t : Target} {map : List KinfoVmentry}

/-- The capabilities of a named block are those that it holds. -/
theorem caps_namedBlock (t : Target) (p : (KinfoVmentry × Nat) × VmEntry) :
    (namedBlock t p).caps t = (blockHeld t p.1).map HeldCap.cap := by
  have hpage : ∀ start, pageCaps (t.memory p.1.2) start =
      (pageHeld (t.memory p.1.2) start).map HeldCap.cap := by
    intro start
    rw [pageCaps, pageHeld]
    cases (t.memory p.1.2).tags start with
    | none => rfl
    | some tagsbuf => rw [List.map_map]; rfl
  rw [NamedBlock.caps, blockHeld]
  change (if hascap t p.1.1 then _ else _) = _
  split
  · rw [List.map_flatMap]
    exact List.flatMap_congr fun start _ => hpage start
  · rfl

/-- The rows that the capabilities are stored in, but for their locations. -/
theorem blockRows_map {α : Type} (h : CapturesHeld t map)
    {p : (KinfoVmentry × Nat) × VmEntry} (hp : p.1 ∈ map.zipIdx)
    (f : Text → Text → Text → α) :
    (blockRows t p).map (fun row => f row.capLocPath row.capAddr row.perms) =
      ((namedBlock t p).caps t).map fun cap =>
        f p.2.mmapPath (hexText cap.address.toNat) cap.perms := by
  rw [blockRows_eq h hp, caps_namedBlock, List.map_map, List.map_map]
  rfl

section Scanned

variable {c : CompletedScan t map}
  {scanned : List ((KinfoVmentry × Nat) × VmEntry)}

theorem BlocksScanned.vm_eq (hclean : t.Clean) (hmap : t.vmmap = some map)
    (hscan : (scanMem t).outcome = .ok ⟨⟩)
    (h : BlocksScanned t c.comparts map.zipIdx c.blocks c.final scanned) :
    (dbScanned t Db.empty).vm.map VmInfo.toVmEntry = scanned.map Prod.snd := by
  rw [(sameRows_dbScanned hclean Db.empty).vm, c.dbAfter_eq hmap hscan,
    h.values]
  simp [Db.empty, Function.comp_def, VmEntry.inserted]

theorem BlocksScanned.namedBlocks_eq (hclean : t.Clean)
    (hmap : t.vmmap = some map) (hscan : (scanMem t).outcome = .ok ⟨⟩)
    (h : BlocksScanned t c.comparts map.zipIdx c.blocks c.final scanned) :
    namedBlocks t map = scanned.map (namedBlock t) := by
  rw [namedBlocks, h.vm_eq hclean hmap hscan, ← h.entries, List.zip_map',
    List.map_map]
  rfl

/-- What is captured in each block. -/
theorem BlocksScanned.capInfo_eq (hclean : t.Clean)
    (hmap : t.vmmap = some map) (hscan : (scanMem t).outcome = .ok ⟨⟩)
    (hok : MapOk map)
    (h : BlocksScanned t c.comparts map.zipIdx c.blocks c.final scanned) :
    (dbScanned t Db.empty).capInfo = scanned.flatMap (blockRows t) := by
  rw [(sameRows_dbScanned hclean Db.empty).capInfo, c.dbAfter_eq hmap hscan,
    ← h.captured hok.entries]
  rfl

end Scanned

theorem map_name_namedBlocks (hclean : t.Clean)
    (hmap : t.vmmap = some map) (hscan : (scanMem t).outcome = .ok ⟨⟩) :
    (namedBlocks t map).map NamedBlock.name =
      (dbScanned t Db.empty).vm.map (·.mmapPath) := by
  obtain ⟨c⟩ := exists_completedScan hmap hscan
  obtain ⟨scanned, hscanned⟩ := loop_scanEntry c.final_eq
  have hnames := congrArg (List.map VmEntry.mmapPath)
    (hscanned.vm_eq hclean hmap hscan)
  rw [List.map_map] at hnames
  rw [hscanned.namedBlocks_eq hclean hmap hscan, List.map_map]
  exact (hnames.trans (List.map_map ..)).symm

theorem exists_block_of_vm (hclean : t.Clean)
    (hmap : t.vmmap = some map) (hscan : (scanMem t).outcome = .ok ⟨⟩) {v : VmInfo}
    (hv : v ∈ (dbScanned t Db.empty).vm) :
    ∃ b ∈ namedBlocks t map, b.name = v.mmapPath := by
  rw [← List.mem_map, map_name_namedBlocks hclean hmap hscan]
  exact List.mem_map_of_mem hv

theorem NamedBlock.mem_fullGraphPaths (hclean : t.Clean)
    (hmap : t.vmmap = some map) (hscan : (scanMem t).outcome = .ok ⟨⟩)
    {b : NamedBlock} (hb : b ∈ namedBlocks t map) :
    b.name ∈ fullGraphPaths (dbScanned t Db.empty) := by
  rw [fullGraphPaths, List.mem_eraseDups, ← map_name_namedBlocks hclean hmap hscan]
  exact List.mem_map_of_mem hb

theorem ScanClean.plainTables (hmap : t.vmmap = some map)
    (hscan : (scanMem t).outcome = .ok ⟨⟩) (h : ScanClean t map) :
    PlainTables (dbScanned t Db.empty) := by
  refine plainTables_of_scan h.clean hscan fun v hv => ?_
  obtain ⟨b, hb, hname⟩ := exists_block_of_vm h.clean hmap hscan hv
  exact hname ▸ h.quotes b hb

theorem ScanClean.noLabelNames (hmap : t.vmmap = some map)
    (hscan : (scanMem t).outcome = .ok ⟨⟩) (h : ScanClean t map) :
    NoLabelNames (dbScanned t Db.empty) := by
  have hvm : ∀ v ∈ (dbScanned t Db.empty).vm, NoLabel v.mmapPath := by
    intro v hv
    obtain ⟨b, hb, hname⟩ := exists_block_of_vm h.clean hmap hscan hv
    exact hname ▸ h.labels b hb
  refine ⟨hvm, fun cap hcap => ?_⟩
  obtain ⟨v, hv, hpath⟩ := (h.plainTables hmap hscan).located cap hcap
  exact hpath ▸ hvm v hv

/-! ### The matches of a process -/

section Matches

variable {q : Quoted} {src dest perms : Text}

/-- The ranges that an address matches are the blocks that it points into. -/
theorem ScanClean.countP_pointsInto (hmap : t.vmmap = some map)
    (hscan : (scanMem t).outcome = .ok ⟨⟩) (h : ScanClean t map)
    (hquote : apostrophe ∉ dest) {b : NamedBlock}
    (hb : b ∈ namedBlocks t map) {cap : Capability} (hcap : cap ∈ b.caps t) :
    (rangesOf q (dbScanned t Db.empty) dest).countP (fun r =>
      pointsInto (hexText cap.address.toNat) r.toVmEntry = true) =
        reachedBlocks t map dest cap := by
  obtain ⟨c⟩ := exists_completedScan hmap hscan
  obtain ⟨scanned, hscanned⟩ := loop_scanEntry c.final_eq
  have hrows : rowsLike q (dbScanned t Db.empty) dest = some
      ((dbScanned t Db.empty).vm.filter fun v =>
        like (within dest) v.mmapPath) := by
    rw [rowsLike, if_neg hquote]
  have hpointing : ∀ p ∈ scanned,
      (pointsInto (hexText cap.address.toNat) p.2 = true ↔
        (namedBlock t p).Reached cap.address) := by
    intro p hp
    have hrecord := hscanned.recordOf p hp
    have hmem : p.1.1 ∈ map := by
      rw [hscanned.map_eq]
      exact List.mem_map_of_mem hp
    exact (pointsInto_agrees_iff ⟨hrecord.startAddr, hrecord.endAddr⟩
      cap.address).1.2 (h.ordered b hb cap hcap p.1.1 hmem)
  calc (rangesOf q (dbScanned t Db.empty) dest).countP (fun r =>
        pointsInto (hexText cap.address.toNat) r.toVmEntry = true)
      = ((dbScanned t Db.empty).vm.map VmInfo.toVmEntry).countP fun v =>
          pointsInto (hexText cap.address.toNat) v = true ∧
            like (within dest) v.mmapPath = true := by
        rw [rangesOf_eq hrows, List.countP_filter, List.countP_map]
        simp [Function.comp_def]
    _ = scanned.countP fun p => (namedBlock t p).Reached cap.address ∧
          like (within dest) (namedBlock t p).name = true := by
        rw [hscanned.vm_eq h.clean hmap hscan, List.countP_map]
        refine List.countP_congr fun p hp => ?_
        simp only [Function.comp_apply, decide_eq_true_eq]
        exact and_congr_left fun _ => hpointing p hp
    _ = reachedBlocks t map dest cap := by
        rw [reachedBlocks, hscanned.namedBlocks_eq h.clean hmap hscan,
          List.countP_filter, List.countP_map]
        simp [Function.comp_def]

/-- The matches between two paths are the references between their blocks. -/
theorem ScanClean.pathMatches_eq (hmap : t.vmmap = some map)
    (hscan : (scanMem t).outcome = .ok ⟨⟩) (h : ScanClean t map)
    (hquote : apostrophe ∉ dest) :
    pathMatches q (dbScanned t Db.empty) src dest perms =
      references t map src dest perms := by
  obtain ⟨c⟩ := exists_completedScan hmap hscan
  obtain ⟨scanned, hscanned⟩ := loop_scanEntry c.final_eq
  -- what a row adds, from its path, its address and its permissions
  let adds (path addr p : Text) : Nat :=
    if path = src ∧ p = perms then
      (rangesOf q (dbScanned t Db.empty) dest).countP fun r =>
        pointsInto addr r.toVmEntry = true ∧ sameLibrary path dest = false
    else 0
  have hmatches : pathMatches q (dbScanned t Db.empty) src dest perms =
      ((dbScanned t Db.empty).capInfo.map fun row =>
        adds row.capLocPath row.capAddr row.perms).sum := rfl
  have hadds : ∀ b ∈ namedBlocks t map, ∀ cap ∈ b.caps t,
      adds b.name (hexText cap.address.toNat) cap.perms =
        if sameLibrary src dest then 0
        else if b.name = src ∧ cap.perms = perms then
          reachedBlocks t map dest cap
        else 0 := by
    intro b hb cap hcap
    rw [← h.countP_pointsInto (q := q) hmap hscan hquote hb hcap]
    by_cases hsrc : b.name = src ∧ cap.perms = perms
    · obtain ⟨rfl, rfl⟩ := hsrc
      cases hsame : sameLibrary b.name dest <;> simp [adds, hsame]
    · simp [adds, hsrc]
  have hblock : ∀ p ∈ scanned, ((blockRows t p).map fun row =>
      adds row.capLocPath row.capAddr row.perms).sum =
        (((namedBlock t p).caps t).map fun cap =>
          if sameLibrary src dest then 0
          else if (namedBlock t p).name = src ∧ cap.perms = perms then
            reachedBlocks t map dest cap
          else 0).sum := by
    intro p hp
    have hmem : p.1 ∈ map.zipIdx := by
      rw [← hscanned.entries]
      exact List.mem_map_of_mem hp
    have hb : namedBlock t p ∈ namedBlocks t map := by
      rw [hscanned.namedBlocks_eq h.clean hmap hscan]
      exact List.mem_map_of_mem hp
    rw [blockRows_map h.reads hmem adds]
    exact congrArg List.sum (List.map_congr_left (hadds _ hb))
  rw [hmatches, hscanned.capInfo_eq h.clean hmap hscan h.map_ok, List.map_flatMap,
    List.flatMap_def, List.sum_flatten, List.map_map, references,
    hscanned.namedBlocks_eq h.clean hmap hscan, List.map_map]
  split
  · next hsame =>
      rw [List.sum_eq_zero_iff_forall_eq_nat]
      intro n hn
      obtain ⟨p, hp, rfl⟩ := List.mem_map.1 hn
      simp [hblock p hp, hsame]
  · next hsame =>
      refine congrArg List.sum (List.map_congr_left fun p hp => ?_)
      simp [hblock p hp, hsame]

end Matches

/-! ### The graphs -/

/-- The edges between two names count the references between their blocks, and
there are no others. -/
structure Graph.ShowsReferences (q : Quoted) (t : Target)
    (map : List KinfoVmentry) (full : Graph) : Prop where
  edges : ∀ e ∈ full.edges, ∃ b ∈ namedBlocks t map, ∃ d ∈ namedBlocks t map,
    pathKey q (dbScanned t Db.empty) b.name d.name e.label = some e.key
  counts : ∀ b ∈ namedBlocks t map, ∀ d ∈ namedBlocks t map, ∀ perms,
    full.between q (dbScanned t Db.empty) b.name d.name perms =
      references t map b.name d.name perms

theorem namedBlocks_ls : namedBlocks lsTarget lsMap =
    (lsMap.zipIdx.zip ((dbAfter lsTarget Db.empty).vm.map
      VmInfo.toVmEntry)).map (namedBlock lsTarget) := by
  rw [namedBlocks, lsTarget_scanned]

theorem lsTarget_scanClean : ScanClean lsTarget lsMap := by
  refine ⟨lsTarget_clean, .of_sorted (by decide) (by decide), ?_, ?_, ?_, ?_⟩
  · intro e he hcap start hstart tagsbuf htags
    have hnone : ∀ byte : BitVec 8, byte = 1 ∨ byte = 0 →
        zeroChar ∉ TagBuf.ofFirst byte := by
      rintro _ (rfl | rfl) <;> decide +kernel
    have hchar : zeroChar ∉ tagsbuf := by
      cases htags
      refine hnone _ ?_
      split
      · exact Or.inl rfl
      · exact Or.inr rfl
    have hfit : PermsFit "rwRW".toList := ⟨by decide, by decide, by decide⟩
    refine ⟨fun b hb => ⟨fun _ => rfl, fun _ => ?_⟩, fun _ _ _ => hfit⟩
    rwa [capturedBits_eq_setBits hchar]
  · rw [namedBlocks_ls]
    decide +kernel
  · rw [namedBlocks_ls]
    decide +kernel
  · rw [namedBlocks_ls]
    intro b hb
    refine noLabel_of_heads ?_
    revert b
    decide +kernel

end Chericat
