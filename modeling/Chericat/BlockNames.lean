import Chericat.MemScan

/-!
The names under which blocks are stored: a library or a region, and the
suffixes `scan_mem` puts behind it.
-/

namespace Chericat

/-- The name of a block: that of a library or a region, and the suffixes put
behind it. -/
structure VmName where
  base : Text
  plt : Bool
  got : Bool
deriving Repr, DecidableEq

def VmName.text (n : VmName) : Text :=
  n.base ++ ((if n.plt then "(.plt)".toList else []) ++
    if n.got then "(.got)".toList else [])

/-- The suffixes of a name can be told from its text. -/
theorem VmName.text_inj_of_base_eq {m n : VmName} (h : m.base = n.base) :
    m.text = n.text ↔ m = n := by
  have hsuffix : ∀ plt got plt' got' : Bool,
      ((if plt then "(.plt)".toList else []) ++
          if got then "(.got)".toList else []) =
        ((if plt' then "(.plt)".toList else []) ++
          if got' then "(.got)".toList else []) ↔
        plt = plt' ∧ got = got' := by
    decide
  obtain ⟨base, plt, got⟩ := m
  obtain ⟨base', plt', got'⟩ := n
  cases h
  rw [text, text, List.append_right_inj, hsuffix, VmName.mk.injEq,
    eq_self_iff_true, true_and]

/-- The name `scan_mem` makes for a block. -/
def vmName (t : Target) (st : ScanState) (kivp : KinfoVmentry) : VmName where
  base := libraryPath t st.seen kivp
  plt := insideBlock kivp (lastRecord t st.ssect).pltAddr
    (lastRecord t st.ssect).pltSize
  got := insideBlock kivp (lastRecord t st.ssect).gotAddr
    (lastRecord t st.ssect).gotSize

theorem mmapPath_eq (t : Target) (st : ScanState) (kivp : KinfoVmentry) :
    mmapPath t st kivp = (vmName t st kivp).text :=
  rfl

end Chericat
