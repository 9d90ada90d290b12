import Chericat.ProcessViews
import Chericat.TwoLibsCopies

/-!
The graph of one library.  It has no edges, but a node for each capability that
is stored under a path with the name in it; after a scan these are the
capabilities of the process, to the last digit.
-/

namespace Chericat

open Numeral

/-- A node of `show_caps_to_bin`. -/
def capNode (c : CapInfo) : Node where
  id := c.capAddr
  txt := c.capAddr ++ "|".toList ++ c.perms ++ "|".toList ++ c.base ++
    "-".toList ++ c.top
  fillcolor := "pink".toList
  rank := "same".toList

/-- The ranges of the library are selected, and not used.  The path is looked
for with `in`, which knows no wildcards and no cases. -/
def showCapsToBin (q : Quoted) (db : Db) (path : Text) : Option Graph := do
  let _ ← rowsLike q db path
  some
    { nodes := libNode path "lightblue".toList ::
        (db.capInfo.filter fun cap => path <:+: cap.capLocPath).map capNode
      edges := [] }

/-- The node for a capability of the process. -/
def heldNode (cap : Capability) : Node :=
  let bounds := hexText cap.base.toNat ++ "-".toList ++ hexText cap.top.toNat
  { id := hexText cap.address.toNat
    txt := hexText cap.address.toNat ++ "|".toList ++ cap.perms ++
      "|".toList ++ bounds
    fillcolor := "pink".toList
    rank := "same".toList }

theorem capNode_exactRow (addr : ULong) (path : Text) (cap : Capability) :
    capNode (exactRow addr path cap) = heldNode cap := by
  simp [capNode, heldNode, exactRow]

variable {t : Target} {map : List KinfoVmentry}

theorem blockNodes_eq (h : CapturesHeld t map)
    {p : (KinfoVmentry × Nat) × VmEntry} (hp : p.1 ∈ map.zipIdx)
    (path : Text) :
    ((blockRows t p).filter fun cap => path <:+: cap.capLocPath).map capNode =
      if path <:+: (namedBlock t p).name then
        ((namedBlock t p).caps t).map heldNode
      else [] := by
  have hnode : capNode ∘ (fun h : HeldCap =>
      exactRow h.loc p.2.mmapPath h.cap) = heldNode ∘ HeldCap.cap :=
    funext fun h => capNode_exactRow ..
  have hpath : ∀ cap ∈ blockRows t p, cap.capLocPath = p.2.mmapPath := by
    rw [blockRows_eq h hp, List.forall_mem_map]
    exact fun _ _ => rfl
  split
  · next hinfix =>
      rw [List.filter_eq_self.2 fun cap hcap =>
        decide_eq_true (hpath cap hcap ▸ hinfix), blockRows_eq h hp,
        caps_namedBlock, List.map_map, List.map_map, hnode]
  · next hinfix =>
      rw [List.filter_eq_nil_iff.2, List.map_nil]
      intro cap hcap hshown
      have hshown := of_decide_eq_true hshown
      rw [hpath cap hcap] at hshown
      exact hinfix hshown

end Chericat
