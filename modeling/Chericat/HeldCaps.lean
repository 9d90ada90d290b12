import Chericat.CapText
import Chericat.TableConsistency

/-!
The capabilities that a process holds where its memory can be read, and the
rows that a scan makes of them.
-/

namespace Chericat

/-! ### The capabilities of a process -/

/-- A capability and the address it is held at. -/
structure HeldCap where
  loc : ULong
  cap : Capability

/-- The tagged capabilities of a page that can be read. -/
def pageHeld (m : Memory) (start : ULong) : List HeldCap :=
  match m.tags start with
  | none => []
  | some tagsbuf => (readBits m start tagsbuf).map fun b =>
      ⟨bitAddress start b, (m.cap (bitAddress start b)).copy⟩

/-- Those of a block, in the memory that its window shows. -/
def blockHeld (t : Target) (e : KinfoVmentry × Nat) : List HeldCap :=
  if hascap t e.1 then
    (pageStarts e.1.kveStart e.1.kveEnd).flatMap (pageHeld (t.memory e.2))
  else []

def processHeld (t : Target) (map : List KinfoVmentry) : List HeldCap :=
  map.zipIdx.flatMap (blockHeld t)

/-- What is tagged in the blocks is captured just when it can be read. -/
def CapturesHeld (t : Target) (map : List KinfoVmentry) : Prop :=
  ∀ e ∈ map.zipIdx, hascap t e.1 →
    ∀ start ∈ pageStarts e.1.kveStart e.1.kveEnd, ∀ tagsbuf,
      (t.memory e.2).tags start = some tagsbuf →
        CapturesReads (t.memory e.2) start tagsbuf

/-! ### Their rows -/

theorem pageRows_eq {m : Memory} {start : ULong}
    (h : ∀ tagsbuf, m.tags start = some tagsbuf →
      CapturesReads m start tagsbuf) (t : Target) (path : Text) :
    (pageGranules m start).map (rowAt t m path) =
      (pageHeld m start).map fun h => exactRow h.loc path h.cap := by
  cases htags : m.tags start with
  | none => simp [pageGranules_none htags, pageHeld, htags]
  | some tagsbuf =>
      have hrows := (@capturedRows_iff m start path tagsbuf).2
        (h tagsbuf htags) t.scanLocals
      rw [pageGranules_some htags, List.map_map, pageHeld, htags, List.map_map]
      exact hrows

section Blocks

variable {t : Target} {map : List KinfoVmentry}

theorem blockRows_eq (h : CapturesHeld t map)
    {p : (KinfoVmentry × Nat) × VmEntry} (hp : p.1 ∈ map.zipIdx) :
    blockRows t p =
      (blockHeld t p.1).map fun h => exactRow h.loc p.2.mmapPath h.cap := by
  rw [blockRows, blockCaps, blockHeld]
  split
  · next hcap =>
      rw [blockGranules, List.map_flatMap, List.map_flatMap]
      refine List.flatMap_congr fun start hstart => ?_
      exact pageRows_eq (h p.1 hp hcap start hstart) t p.2.mmapPath
  · rfl

/-- The addresses of what a block holds are those the scan captures. -/
theorem map_loc_blockHeld (h : CapturesHeld t map) {e : KinfoVmentry × Nat}
    (he : e ∈ map.zipIdx) :
    (blockHeld t e).map HeldCap.loc = blockCaps t e.2 e.1 := by
  rw [blockCaps, blockHeld]
  split
  · next hcap =>
      rw [blockGranules, List.map_flatMap]
      refine List.flatMap_congr fun start hstart => ?_
      cases htags : (t.memory e.2).tags start with
      | none => simp [pageGranules_none htags, pageHeld, htags]
      | some tagsbuf =>
          have hbits := capturedBits_eq_readBits_iff.2
            (h e he hcap start hstart tagsbuf htags).captured
          rw [pageGranules_some htags, hbits, pageHeld, htags, List.map_map]
          rfl
  · rfl

theorem contains_of_mem_blockHeld (hok : MapOk map) (h : CapturesHeld t map)
    {e : KinfoVmentry × Nat} (he : e ∈ map.zipIdx) {held : HeldCap}
    (hheld : held ∈ blockHeld t e) : e.1.Contains held.loc := by
  have hloc : held.loc ∈ blockCaps t e.2 e.1 := by
    rw [← map_loc_blockHeld h he]
    exact List.mem_map_of_mem hheld
  exact ((mem_blockCaps (hok.entries e he)).1 hloc).2.1

end Blocks

end Chericat
