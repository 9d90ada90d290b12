import Chericat.Database
import Mathlib.Data.List.Count

/-!
The queries behind `vm_caps_view.c`, `comp_caps_view.c` and
`caps_syms_view.c`: counting the captured capabilities of a block or of a
compartment, and joining their addresses with the symbols.
-/

namespace Chericat

open Numeral

/-- `(uintptr_t)strtol(text, NULL, 0)`. -/
def uintptr (text : Text) : ULong := BitVec.ofInt 64 (strtol 0 text).1

/-- The counters of one output row. -/
structure CapCounts where
  outCapCount : Nat
  roCount : Nat
  rwCount : Nat
  rxCount : Nat
  rwxCount : Nat
deriving Repr, DecidableEq

def CapCounts.zero : CapCounts := ⟨0, 0, 0, 0, 0⟩

/-- Count a capability with the given permissions. -/
def CapCounts.count (n : CapCounts) (perms : Text) : CapCounts :=
  { outCapCount := n.outCapCount + 1
    roCount :=
      if 'r' ∈ perms ∧ 'w' ∉ perms ∧ 'x' ∉ perms then n.roCount + 1
      else n.roCount
    rwCount :=
      if 'r' ∈ perms ∧ 'w' ∈ perms ∧ 'x' ∉ perms then n.rwCount + 1
      else n.rwCount
    rxCount :=
      if 'r' ∈ perms ∧ 'x' ∈ perms ∧ 'w' ∉ perms then n.rxCount + 1
      else n.rxCount
    rwxCount :=
      if 'r' ∈ perms ∧ 'x' ∈ perms ∧ 'w' ∈ perms then n.rwxCount + 1
      else n.rwxCount }

/-- Count the capabilities that pass a test. -/
def countCaps (test : CapInfo → Bool) (caps : List CapInfo) : CapCounts :=
  caps.foldl (fun n c => if test c then n.count c.perms else n) .zero

/-- `cap_loc_addr >= start_addr && cap_loc_addr <= end_addr`. -/
def inVmBlock (v : VmEntry) (capLocAddr : Text) : Bool :=
  uintptr v.startAddr ≤ uintptr capLocAddr &&
    uintptr capLocAddr ≤ uintptr v.endAddr

def vmCounts (caps : List CapInfo) (v : VmInfo) : CapCounts :=
  countCaps (fun c => inVmBlock v.toVmEntry c.capLocAddr) caps

/-- The rows of `vm_caps_view` with their counters. -/
def vmCapsView (db : Db) : List (VmInfo × CapCounts) :=
  db.vm.map fun v => (v, vmCounts db.capInfo v)

/-- A `NULL` bound is the address `0`. -/
def compBound (text : Option Text) : ULong :=
  match text with
  | some s => uintptr s
  | none => 0

/-- Location and target both lie in the compartment. -/
def inCompart (r : CompInfo) (c : CapInfo) : Bool :=
  compBound r.startAddr ≤ uintptr c.capLocAddr &&
    uintptr c.capLocAddr ≤ compBound r.endAddr &&
    compBound r.startAddr ≤ uintptr c.capAddr &&
    uintptr c.capAddr ≤ compBound r.endAddr

def compCounts (caps : List CapInfo) (r : CompInfo) : CapCounts :=
  countCaps (inCompart r) caps

/-- The rows of `comp_caps_view` with their counters. -/
def compCapsView (db : Db) : List (CompInfo × CapCounts) :=
  db.comparts.rows.map fun r => (r, compCounts db.capInfo r)

/-! ### Symbols -/

/-- The first symbol whose address text is equal. -/
def symAt (syms : List SymInfo) (addr : Text) : Option SymInfo :=
  syms.find? fun s => addr = s.addr

/-- `"%s (%s)"` of the symbol and its type. -/
def symText : Option SymInfo → Text
  | some s => s.symName ++ " (".toList ++ s.type ++ ")".toList
  | none => "- (-)".toList

/-- A row of `caps_syms_view`. -/
structure CapSyms where
  capLocAddr : Text
  symInfoForLoc : Text
  capInfo : Text
  symInfoForCap : Text
deriving Repr, DecidableEq

def capSyms (syms : List SymInfo) (c : CapInfo) : CapSyms :=
  { capLocAddr := c.capLocAddr
    symInfoForLoc := symText (symAt syms c.capLocAddr)
    capInfo := c.capAddr ++ "[".toList ++ c.perms ++ ",-".toList ++ c.top ++
      "]".toList
    symInfoForCap := symText (symAt syms c.capAddr) }

/-! ### The total of a row -/

/-- A counter that grows with the permissions `p` counts what passes the test
and has them. -/
theorem countCaps_field (field : CapCounts → Nat) (p : Text → Bool)
    (hzero : field .zero = 0) (hcount : ∀ n perms,
      field (n.count perms) = field n + if p perms then 1 else 0)
    (test : CapInfo → Bool) (caps : List CapInfo) :
    field (countCaps test caps) =
      caps.countP fun c => test c && p c.perms := by
  have hfold : ∀ n : CapCounts,
      field (caps.foldl (fun n c => if test c then n.count c.perms else n) n) =
        field n + caps.countP fun c => test c && p c.perms := by
    induction caps with
    | nil => exact fun n => rfl
    | cons c cs ih =>
        intro n
        rw [List.foldl_cons, ih, List.countP_cons]
        by_cases htest : test c = true
        · simp only [htest, if_true, hcount, Bool.true_and]
          omega
        · simp [htest]
  rw [countCaps, hfold, hzero, Nat.zero_add]

/-- `out_cap_count` counts what passes the test. -/
theorem countCaps_outCapCount (test : CapInfo → Bool) (caps : List CapInfo) :
    (countCaps test caps).outCapCount = caps.countP test := by
  have hfield := countCaps_field CapCounts.outCapCount (fun _ => true) rfl
    (fun _ _ => rfl) test caps
  simpa using hfield

/-- `TOTAL` of a block depends on the captured addresses alone. -/
theorem vmCounts_outCapCount (caps : List CapInfo) (v : VmInfo) :
    (vmCounts caps v).outCapCount =
      (caps.map CapInfo.capLocAddr).countP (inVmBlock v.toVmEntry) := by
  rw [vmCounts, countCaps_outCapCount, List.countP_map]
  rfl

end Chericat
