import Chericat.BlockTotals
import Chericat.CompartWeights
import Chericat.SourceCompart

/-!
What the weights of the compartment graph count.  They are meant to count
capabilities, but a capability is counted once for each path of the compartment
and each block range that match it, and the paths of a library that is split
into several blocks match one another.
-/

namespace Chericat

open Numeral SqlLike

/-! ### Capabilities from one compartment into another -/

/-- The address that a text of the tables stands for. -/
def addressOf (text : Text) : Nat := (strtoul 16 text).1

/-- The address lies in the block. -/
def VmEntry.Holds (v : VmEntry) (address : Nat) : Prop :=
  addressOf v.startAddr ≤ address ∧ address < addressOf v.endAddr

instance (v : VmEntry) (address : Nat) : Decidable (v.Holds address) :=
  inferInstanceAs (Decidable (_ ∧ _))

def dropSuffix (suffix name : Text) : Text :=
  if suffix.isSuffixOf name then name.take (name.length - suffix.length)
  else name

/-- The library that the block of this name belongs to. -/
def libraryOf (name : Text) : Text :=
  dropSuffix "(.plt)".toList (dropSuffix "(.got)".toList name)

section Pointing

variable (db : Db) (src dest : Int) (perms : Text)

/-- The capability has the permissions, is stored in a block of the first
compartment and points into one of the second that belongs to another
library. -/
def PointsFrom (cap : CapInfo) : Prop :=
  cap.perms = perms ∧
    (∃ v ∈ db.vm, v.compartId = src ∧ v.Holds (addressOf cap.capLocAddr)) ∧
    ∃ v ∈ db.vm, v.compartId = dest ∧ v.Holds (addressOf cap.capAddr) ∧
      libraryOf v.mmapPath ≠ libraryOf cap.capLocPath

instance (cap : CapInfo) : Decidable (PointsFrom db src dest perms cap) :=
  inferInstanceAs (Decidable (_ ∧ _ ∧ _))

def pointingCaps : Nat := db.capInfo.countP (PointsFrom db src dest perms ·)

end Pointing

theorem addressOf_hexText (a : ULong) : addressOf (hexText a.toNat) = a.toNat := by
  have hscan := scanInteger_hexText (Or.inr rfl) a.toNat (endsNumeral_nil 16)
  have hrange : ¬ ulongMax < a.toNat := by
    have := a.isLt
    rw [ulongMax]
    omega
  rw [List.append_nil] at hscan
  simp [addressOf, strtoul, hscan, hrange]

/-- In the rows of a scan these are the addresses of the block. -/
theorem VmEntry.RecordOf.holds_iff {v : VmEntry} {kivp : KinfoVmentry}
    (h : v.RecordOf kivp) (a : ULong) :
    v.Holds a.toNat ↔ kivp.Contains a := by
  rw [Holds, h.startAddr, h.endAddr, addressOf_hexText, addressOf_hexText,
    KinfoVmentry.Contains, BitVec.le_def, BitVec.lt_def]

/-- A row holds addresses of the machine only. -/
theorem VmEntry.RecordOf.contains_of_holds {v : VmEntry} {kivp : KinfoVmentry}
    (h : v.RecordOf kivp) {n : Nat} (hn : v.Holds n) :
    kivp.Contains (BitVec.ofNat 64 n) := by
  have hend := hn.2
  rw [h.endAddr, addressOf_hexText] at hend
  have hsmall : (BitVec.ofNat 64 n).toNat = n := by
    have := kivp.kveEnd.isLt
    rw [BitVec.toNat_ofNat, Nat.mod_eq_of_lt (by omega)]
  rw [← h.holds_iff, hsmall]
  exact hn

/-! ### Tables of disjoint blocks -/

/-- What a scan of disjoint blocks leaves: no address lies in two blocks, a
capability in one with its path, and equal names have one compartment. -/
structure BlockTables (db : Db) : Prop extends PlainTables db where
  disjoint : db.vm.Pairwise fun u v => ∀ n, u.Holds n → ¬ v.Holds n
  stored : ∀ cap ∈ db.capInfo, ∃ v ∈ db.vm, v.mmapPath = cap.capLocPath ∧
    v.Holds (addressOf cap.capLocAddr)
  attributed : ∀ u ∈ db.vm, ∀ v ∈ db.vm, u.mmapPath = v.mmapPath →
    u.compartId = v.compartId

theorem blockTables_of_scan {t : Target} {map : List KinfoVmentry}
    (hclean : t.Clean) (hmap : t.vmmap = some map) (hok : MapOk map)
    (hscan : (scanMem t).outcome = .ok ⟨⟩)
    (hquotes : ∀ v ∈ (dbScanned t Db.empty).vm, apostrophe ∉ v.mmapPath) :
    BlockTables (dbScanned t Db.empty) := by
  obtain ⟨hconsistent, _⟩ := scanned_tables_consistent hclean hmap hok hscan
  have hentry {i : Nat} {v : VmInfo}
      (hi : (dbScanned t Db.empty).vm[i]? = some v) :
      ∃ kivp, map[i]? = some kivp ∧ v.toVmEntry.RecordOf kivp := by
    have hlength := hconsistent.described.length_eq
    rw [List.length_map] at hlength
    have hlt : i < map.length := by
      rw [← hlength]
      exact (List.getElem?_eq_some_iff.mp hi).1
    exact ⟨map[i], List.getElem?_eq_getElem hlt,
      hconsistent.recordOf (List.getElem?_eq_getElem hlt) hi⟩
  refine ⟨plainTables_of_scan hclean hscan hquotes, ?_, ?_, ?_⟩
  · rw [List.pairwise_iff_getElem]
    intro i k hi hk hlt n hin hkn
    obtain ⟨e, he, hrow⟩ := hentry (List.getElem?_eq_getElem hi)
    obtain ⟨f, hf, hrow'⟩ := hentry (List.getElem?_eq_getElem hk)
    have hsame := hok.unique he hf (hrow.contains_of_holds hin)
      (hrow'.contains_of_holds hkn)
    omega
  · intro cap hcap
    obtain ⟨a, i, kivp, v, hi, hv, hcaptured, _⟩ :=
      hconsistent.located cap hcap
    rw [List.getElem?_map, Option.map_eq_some_iff] at hv
    obtain ⟨v', hv', rfl⟩ := hv
    obtain ⟨e, he, hrow⟩ := hentry hv'
    refine ⟨v', List.mem_of_getElem? hv', hcaptured.capLocPath.symm, ?_⟩
    rw [hcaptured.capLocAddr, addressOf_hexText, hrow.holds_iff,
      ← hrow.covers_iff]
    exact hcaptured.covers
  · intro u hu v hv hpath
    obtain ⟨objs, _, hid⟩ := scan_attributed hclean hscan
    rw [hid u hu, hid v hv, hpath]

/-! ### Matches of one capability -/

section Matches

variable (q : Quoted) (db : Db)

/-- The paths of the compartment, each with the block ranges it selects. -/
def blockPairs (compartId : Int) : List (Text × VmInfo) :=
  (compartPaths db compartId).flatMap fun path =>
    (rangesOf q db path).map (path, ·)

/-- How often the capability is counted for the edge. -/
def edgeMatches (src dest : Int) (perms : Text) (cap : CapInfo) : Nat :=
  if compartOf q db cap.capLocPath = some src ∧ cap.perms = perms then
    (blockPairs q db dest).countP fun m => Hit cap m.1 m.2
  else 0

end Matches

variable {q : Quoted} {db : Db} {src dest : Int} {perms : Text}

theorem compartPaths_eq_nil {id : Int} (h : id ∉ compartIds db) :
    compartPaths db id = [] := by
  rw [List.eq_nil_iff_forall_not_mem]
  intro path hpath
  obtain ⟨v, hv, rfl, _⟩ := mem_compartPaths.mp hpath
  exact h (List.mem_eraseDups.mpr (List.mem_map_of_mem hv))

/-- The matches of a capability, path by path. -/
theorem edgeMatches_eq (cap : CapInfo) : edgeMatches q db src dest perms cap =
    ((compartPaths db dest).map fun path =>
      (rangesOf q db path).countP fun r => Hit cap path r ∧
        compartOf q db cap.capLocPath = some src ∧ cap.perms = perms).sum := by
  rw [edgeMatches]
  split
  · next h =>
      simp only [blockPairs, List.countP_flatMap, Function.comp_def,
        List.countP_map, h, and_true]
  · next h =>
      have hzero : ∀ path, (rangesOf q db path).countP (fun r =>
          Hit cap path r ∧ compartOf q db cap.capLocPath = some src ∧
            cap.perms = perms) = 0 := by
        intro path
        simp only [List.countP_eq_zero, decide_eq_true_eq]
        rintro r _ ⟨_, hcap⟩
        exact h hcap
      simp only [hzero, List.map_const', List.sum_replicate, smul_zero]

/-- An edge counts the matches of all capabilities. -/
theorem compartCount_eq (hne : src ≠ dest) :
    compartCount q db (decText src, decText dest, perms) =
      (db.capInfo.map (edgeMatches q db src dest perms)).sum := by
  have hpasses : ∀ id path cap r, (CompartMatch.mk id path cap r).Passes q db
      (decText src, decText dest, perms) ↔ Hit cap path r ∧
        compartOf q db cap.capLocPath = some src ∧ id = dest ∧
          cap.perms = perms := by
    intro id path cap r
    rw [compartMatch_passes_iff]
    simp only [hne, ne_eq, not_false_eq_true, true_and]
  have hnodup : (compartIds db).Nodup := Steps.nodup_eraseDups _
  have hmatches : edgeMatches q db src dest perms = fun cap => _ :=
    funext edgeMatches_eq
  rw [hmatches, ← Steps.sum_map_sum_map]
  simp only [compartCount, compartMatches, List.countP_flatMap,
    Function.comp_def, List.countP_map, hpasses]
  rw [Steps.sum_map_single (a := dest) ?_ hnodup]
  · split
    · simp only [true_and]
    · next h => simp only [compartPaths_eq_nil h, List.map_nil, List.sum_nil]
  · intro id hid
    simp [hid]

/-! ### Matches of disjoint blocks -/

/-- The source of a capability is found, and a capability passes the tests
against the block of another compartment and library that it points into. -/
structure CapsServed (db : Db) : Prop where
  source : ∀ cap ∈ db.capInfo, ∀ s ∈ db.vm, s.mmapPath = cap.capLocPath →
    (db.vm.find? fun v => like (within cap.capLocPath) v.mmapPath).map
      (·.compartId) = some s.compartId
  reached : ∀ cap ∈ db.capInfo, ∀ s ∈ db.vm, s.mmapPath = cap.capLocPath →
    ∀ v ∈ db.vm, v.compartId ≠ s.compartId →
      v.Holds (addressOf cap.capAddr) →
      libraryOf v.mmapPath ≠ libraryOf cap.capLocPath → Hit cap v.mmapPath v

/-- A block that a path of another compartment selects, and against which a
capability passes the tests, has this path as its name, holds the address of
the capability and belongs to another library. -/
def MatchesOwn (db : Db) : Prop :=
  ∀ cap ∈ db.capInfo, ∀ s ∈ db.vm, s.mmapPath = cap.capLocPath →
    ∀ u ∈ db.vm, u.compartId ≠ s.compartId →
    ∀ v ∈ db.vm, like (within u.mmapPath) v.mmapPath = true →
      Hit cap u.mmapPath v →
      v.mmapPath = u.mmapPath ∧ v.Holds (addressOf cap.capAddr) ∧
        libraryOf v.mmapPath ≠ libraryOf cap.capLocPath

theorem mem_blockPairs (h : PlainTables db) {id : Int} {path : Text}
    {r : VmInfo} : (path, r) ∈ blockPairs q db id ↔
      path ∈ compartPaths db id ∧ r ∈ db.vm ∧
        like (within path) r.mmapPath = true := by
  have hpair : (path, r) ∈ blockPairs q db id ↔
      path ∈ compartPaths db id ∧ r ∈ rangesOf q db path := by
    simp [blockPairs]
  rw [hpair]
  refine and_congr_right fun hpath => ?_
  obtain ⟨v, hv, _, rfl⟩ := mem_compartPaths.mp hpath
  have hrows : rowsLike q db v.mmapPath = some (db.vm.filter fun u =>
      like (within v.mmapPath) u.mmapPath) := by
    rw [rowsLike, if_neg (h.quotes v hv)]
  rw [rangesOf_eq hrows, List.mem_filter]

/-- Two different pairs that match count twice. -/
theorem two_le_edgeMatches {cap : CapInfo} {m m' : Text × VmInfo}
    (hm : m ∈ blockPairs q db dest) (hm' : m' ∈ blockPairs q db dest)
    (hne : m ≠ m') (hhit : Hit cap m.1 m.2) (hhit' : Hit cap m'.1 m'.2)
    (hsrc : compartOf q db cap.capLocPath = some src)
    (hperms : cap.perms = perms) :
    2 ≤ edgeMatches q db src dest perms cap := by
  have hfirst : m ∈ (blockPairs q db dest).filter fun m => Hit cap m.1 m.2 :=
    List.mem_filter.mpr ⟨hm, decide_eq_true hhit⟩
  have hsecond : m' ∈ (blockPairs q db dest).filter
      fun m => Hit cap m.1 m.2 :=
    List.mem_filter.mpr ⟨hm', decide_eq_true hhit'⟩
  rw [edgeMatches, if_pos ⟨hsrc, hperms⟩, List.countP_eq_length_filter]
  rcases hlist : (blockPairs q db dest).filter fun m => Hit cap m.1 m.2
    with - | ⟨a, - | ⟨b, rest⟩⟩
  · rw [hlist] at hfirst
    cases hfirst
  · rw [hlist, List.mem_singleton] at hfirst hsecond
    exact absurd (hfirst.trans hsecond.symm) hne
  · rw [hlist]
    exact Nat.le_add_left 2 rest.length

theorem countP_le_one {α : Type} {p : α → Prop} [DecidablePred p]
    {l : List α} (h : l.Pairwise fun a b => p a → ¬ p b) :
    l.countP (p ·) ≤ 1 := by
  induction l with
  | nil => exact Nat.zero_le 1
  | cons a l ih =>
      obtain ⟨ha, hrest⟩ := List.pairwise_cons.mp h
      rw [List.countP_cons]
      by_cases hp : p a
      · have hnone : l.countP (p ·) = 0 := by
          rw [List.countP_eq_zero]
          intro b hb
          simpa using ha b hb hp
        rw [hnone, if_pos (decide_eq_true hp)]
      · rw [if_neg (by simpa using hp)]
        exact ih hrest

section Blocks

variable {cap : CapInfo} {s : VmInfo}

theorem BlockTables.holds_unique (h : BlockTables db) {u v : VmInfo}
    (hu : u ∈ db.vm) (hv : v ∈ db.vm) {n : Nat} (hun : u.Holds n)
    (hvn : v.Holds n) : u = v := by
  by_contra hne
  have : Std.Symm fun u v : VmInfo => ∀ n, u.Holds n → ¬ v.Holds n :=
    ⟨fun _ _ hab n hb ha => hab n ha hb⟩
  exact h.disjoint.forall hu hv hne n hun hvn

/-- The compartment that a capability is stored in is that of its path. -/
theorem BlockTables.pointsFrom_iff (h : BlockTables db)
    (hcap : cap ∈ db.capInfo) (hs : s ∈ db.vm)
    (hpath : s.mmapPath = cap.capLocPath) :
    PointsFrom db src dest perms cap ↔ cap.perms = perms ∧
      s.compartId = src ∧ ∃ v ∈ db.vm, v.compartId = dest ∧
        v.Holds (addressOf cap.capAddr) ∧
        libraryOf v.mmapPath ≠ libraryOf cap.capLocPath := by
  obtain ⟨b, hb, hbpath, hbholds⟩ := h.stored cap hcap
  have hid : b.compartId = s.compartId :=
    h.attributed b hb s hs (hbpath.trans hpath.symm)
  refine and_congr_right fun _ => and_congr_left fun _ => ⟨?_, fun hsrc => ?_⟩
  · rintro ⟨v, hv, hvid, hholds⟩
    rw [← hid, h.holds_unique hb hv hbholds hholds, hvid]
  · exact ⟨b, hb, hid.trans hsrc, hbholds⟩

theorem BlockTables.compartOf_eq (h : BlockTables db) (hserved : CapsServed db)
    (hcap : cap ∈ db.capInfo) (hs : s ∈ db.vm)
    (hpath : s.mmapPath = cap.capLocPath) :
    compartOf q db cap.capLocPath = some s.compartId := by
  have hsource := hserved.source cap hcap s hs hpath
  rw [compartOf, rowsLike, if_neg (hpath ▸ h.quotes s hs)]
  simpa only [Option.bind_eq_bind, Option.bind_some, List.head?_filter]
    using hsource

/-- The block that a capability points into is matched by its own name. -/
theorem BlockTables.self_match (h : BlockTables db) (hserved : CapsServed db)
    (hcap : cap ∈ db.capInfo) (hs : s ∈ db.vm)
    (hpath : s.mmapPath = cap.capLocPath) {v : VmInfo} (hv : v ∈ db.vm)
    (hne : v.compartId ≠ s.compartId) (hholds : v.Holds (addressOf cap.capAddr))
    (hlib : libraryOf v.mmapPath ≠ libraryOf cap.capLocPath) :
    (v.mmapPath, v) ∈ blockPairs q db v.compartId ∧ Hit cap v.mmapPath v :=
  ⟨(mem_blockPairs h.toPlainTables).mpr ⟨mem_compartPaths.mpr ⟨v, hv, rfl, rfl⟩,
      hv, like_within_self _⟩,
    hserved.reached cap hcap s hs hpath v hv hne hholds hlib⟩

/-- No capability that the edge should count is missed. -/
theorem BlockTables.one_le_edgeMatches (h : BlockTables db)
    (hserved : CapsServed db) (hne : src ≠ dest) (hcap : cap ∈ db.capInfo)
    (hpoints : PointsFrom db src dest perms cap) :
    1 ≤ edgeMatches q db src dest perms cap := by
  obtain ⟨s, hs, hpath⟩ := h.located cap hcap
  obtain ⟨hperms, rfl, v, hv, rfl, hholds, hlib⟩ :=
    (h.pointsFrom_iff hcap hs hpath).mp hpoints
  obtain ⟨hpair, hhit⟩ := h.self_match (q := q) hserved hcap hs hpath hv
    hne.symm hholds hlib
  rw [edgeMatches, if_pos ⟨h.compartOf_eq hserved hcap hs hpath, hperms⟩,
    Nat.one_le_iff_ne_zero, ← Nat.pos_iff_ne_zero, List.countP_pos_iff]
  exact ⟨_, hpair, decide_eq_true hhit⟩

/-- Where every match is of the block's own name, at most one counts. -/
theorem BlockTables.edgeMatches_le_one (h : BlockTables db)
    (hserved : CapsServed db) (hown : MatchesOwn db) (hne : src ≠ dest)
    (hcap : cap ∈ db.capInfo) : edgeMatches q db src dest perms cap ≤ 1 := by
  rw [edgeMatches]
  split
  · next hsource =>
      obtain ⟨s, hs, hpath⟩ := h.located cap hcap
      have hid : s.compartId = src := Option.some.inj
        ((h.compartOf_eq hserved hcap hs hpath).symm.trans hsource.1)
      -- a pair that matches is the name of the block and the block
      have hproper {m : Text × VmInfo} (hm : m ∈ blockPairs q db dest)
          (hhit : Hit cap m.1 m.2) : m.2 ∈ db.vm ∧ m.2.mmapPath = m.1 ∧
            m.2.Holds (addressOf cap.capAddr) := by
        obtain ⟨hmpath, hr, hlike⟩ := (mem_blockPairs h.toPlainTables).mp hm
        obtain ⟨u, hu, hudest, hupath⟩ := mem_compartPaths.mp hmpath
        rw [← hupath] at hlike hhit ⊢
        obtain ⟨hname, hholds, _⟩ := hown cap hcap s hs hpath u hu
          (by omega) m.2 hr hlike hhit
        exact ⟨hr, hname, hholds⟩
      apply countP_le_one (p := fun m : Text × VmInfo => Hit cap m.1 m.2)
      have hpairs : (blockPairs q db dest).Pairwise fun m m' =>
          m.1 = m'.1 → ∀ n, m.2.Holds n → ¬ m'.2.Holds n := by
        rw [blockPairs, List.pairwise_flatMap]
        constructor
        · intro path hcompart
          obtain ⟨v, hv, _, rfl⟩ := mem_compartPaths.mp hcompart
          have hrows : rowsLike q db v.mmapPath = some (db.vm.filter fun u =>
              like (within v.mmapPath) u.mmapPath) := by
            rw [rowsLike, if_neg (h.quotes v hv)]
          rw [rangesOf_eq hrows, List.pairwise_map]
          refine (h.disjoint.filter _).imp ?_
          intro r r' hdisjoint _
          exact hdisjoint
        · have hnodup : (compartPaths db dest).Nodup :=
            Steps.nodup_eraseDups _
          refine hnodup.imp fun hpaths m hm m' hm' hsame => ?_
          obtain ⟨_, _, rfl⟩ := List.mem_map.mp hm
          obtain ⟨_, _, rfl⟩ := List.mem_map.mp hm'
          exact absurd hsame hpaths
      refine hpairs.imp_of_mem fun {m m'} hm hm' hdisjoint hhit hhit' => ?_
      obtain ⟨hr, hname, hholds⟩ := hproper hm hhit
      obtain ⟨hr', hname', hholds'⟩ := hproper hm' hhit'
      have hsame := h.holds_unique hr hr' hholds hholds'
      exact hdisjoint (by rw [← hname, ← hname', hsame]) _ hholds hholds'
  · exact Nat.zero_le 1

/-- Where every match is of the block's own name, only capabilities count that
the edge should count. -/
theorem BlockTables.pointsFrom_of_edgeMatches (h : BlockTables db)
    (hserved : CapsServed db) (hown : MatchesOwn db) (hne : src ≠ dest)
    (hcap : cap ∈ db.capInfo)
    (hmatches : edgeMatches q db src dest perms cap ≠ 0) :
    PointsFrom db src dest perms cap := by
  obtain ⟨s, hs, hpath⟩ := h.located cap hcap
  rw [edgeMatches] at hmatches
  split at hmatches
  · next hsource =>
      have hid : s.compartId = src := Option.some.inj
        ((h.compartOf_eq hserved hcap hs hpath).symm.trans hsource.1)
      rw [← Nat.pos_iff_ne_zero, List.countP_pos_iff] at hmatches
      obtain ⟨⟨path, r⟩, hm, hhit⟩ := hmatches
      obtain ⟨hcompart, hr, hlike⟩ := (mem_blockPairs h.toPlainTables).mp hm
      obtain ⟨u, hu, rfl, rfl⟩ := mem_compartPaths.mp hcompart
      obtain ⟨hname, hholds, hlib⟩ := hown cap hcap s hs hpath u hu
        (by omega) r hr hlike (of_decide_eq_true hhit)
      exact (h.pointsFrom_iff hcap hs hpath).mpr ⟨hsource.2, hid, r, hr,
        h.attributed r hr u hu hname, hholds, hlib⟩
  · exact absurd rfl hmatches

/-- A match of another kind is one too many. -/
theorem BlockTables.surplus_of_not_own (h : BlockTables db)
    (hserved : CapsServed db) (hcap : cap ∈ db.capInfo) (hs : s ∈ db.vm)
    (hpath : s.mmapPath = cap.capLocPath) {u v : VmInfo} (hu : u ∈ db.vm)
    (hne : u.compartId ≠ s.compartId) (hv : v ∈ db.vm)
    (hlike : like (within u.mmapPath) v.mmapPath = true)
    (hhit : Hit cap u.mmapPath v)
    (hother : ¬ (v.mmapPath = u.mmapPath ∧ v.Holds (addressOf cap.capAddr) ∧
      libraryOf v.mmapPath ≠ libraryOf cap.capLocPath)) :
    (if PointsFrom db s.compartId u.compartId cap.perms cap then 1 else 0) <
      edgeMatches q db s.compartId u.compartId cap.perms cap := by
  have hsource := h.compartOf_eq (q := q) hserved hcap hs hpath
  have hpair : (u.mmapPath, v) ∈ blockPairs q db u.compartId :=
    (mem_blockPairs h.toPlainTables).mpr
      ⟨mem_compartPaths.mpr ⟨u, hu, rfl, rfl⟩, hv, hlike⟩
  split
  · next hpoints =>
      -- the block that the capability points into is the second match
      obtain ⟨_, _, w, hw, hwdest, hholds, hlib⟩ :=
        (h.pointsFrom_iff hcap hs hpath).mp hpoints
      obtain ⟨hpair', hhit'⟩ := h.self_match (q := q) hserved hcap hs hpath hw
        (hwdest ▸ hne) hholds hlib
      rw [hwdest] at hpair'
      refine two_le_edgeMatches hpair hpair' ?_ hhit hhit' hsource rfl
      intro hsame
      rw [Prod.mk.injEq] at hsame
      obtain ⟨hname, rfl⟩ := hsame
      exact hother ⟨hname.symm, hholds, hlib⟩
  · rw [edgeMatches, if_pos ⟨hsource, rfl⟩, List.countP_pos_iff]
    exact ⟨_, hpair, decide_eq_true hhit⟩

end Blocks

theorem pointingCaps_eq_sum : pointingCaps db src dest perms =
    (db.capInfo.map fun cap =>
      if PointsFrom db src dest perms cap then 1 else 0).sum :=
  (Steps.sum_map_ite (PointsFrom db src dest perms) db.capInfo).symm

/-- The counts of all edges are right exactly when every match is of the
block's own name. -/
theorem BlockTables.counts_iff (h : BlockTables db) (hserved : CapsServed db) :
    (∀ src dest perms, src ≠ dest →
        0 < compartCount q db (decText src, decText dest, perms) →
        compartCount q db (decText src, decText dest, perms) =
          pointingCaps db src dest perms) ↔ MatchesOwn db := by
  constructor
  · intro hcounts cap hcap s hs hpath u hu hne v hv hlike hhit
    by_contra hother
    have hsurplus := h.surplus_of_not_own (q := q) hserved hcap hs hpath hu hne
      hv hlike hhit hother
    have hmore : pointingCaps db s.compartId u.compartId cap.perms <
        compartCount q db
          (decText s.compartId, decText u.compartId, cap.perms) := by
      rw [pointingCaps_eq_sum, compartCount_eq hne.symm]
      refine List.sum_lt_sum _ _ (fun c hc => ?_) ⟨cap, hcap, hsurplus⟩
      split
      · next hpoints => exact h.one_le_edgeMatches hserved hne.symm hc hpoints
      · exact Nat.zero_le _
    have heq := hcounts s.compartId u.compartId cap.perms hne.symm (by omega)
    omega
  · intro hown src dest perms hne _
    rw [pointingCaps_eq_sum, compartCount_eq hne]
    congr 1
    refine List.map_congr_left fun cap hcap => ?_
    have hle : edgeMatches q db src dest perms cap ≤ 1 :=
      h.edgeMatches_le_one hserved hown hne hcap
    split
    · next hpoints =>
        have hge := h.one_le_edgeMatches (q := q) hserved hne hcap hpoints
        omega
    · next hnone =>
        by_contra hmatches
        exact hnone (h.pointsFrom_of_edgeMatches hserved hown hne hcap
          hmatches)

/-- One tagged granule on the stack, with a capability into the `.plt`. -/
def pltMemory (i : Nat) : Memory where
  tags _ := some (.ofFirst (if i = 2 then 1 else 0))
  cap _ := ⟨true, ⟨0x41010, "rwRW".toList, 0x41000, 0x42000, none⟩⟩

/-- A library of compartment 1 in two blocks, one of which holds its `.plt`,
and the stack. -/
def splitTarget : Target :=
  { lsTarget with
    vmmap := some
      [headA, pltA,
        { KinfoVmentry.sample 0x7f000 0x80000 with kveFlags := 0x40000020 }]
    getString := fun addr => ⟨[addr], some libA⟩
    elf := fun _ => some (oneSection pltName)
    memory := pltMemory }

theorem splitTarget_scanned :
    dbScanned splitTarget Db.empty = dbAfter splitTarget Db.empty := by
  have hclean : splitTarget.Clean := by
    refine clean_of_unnamed (t := splitTarget) rfl (by decide +kernel) ?_ ?_
      (fun _ _ => (by decide : SqlText.QuoteFree "rwRW".toList)) rfl
    · intro a s hs
      cases hs
      decide
    · intro path file hfile
      cases hfile
      exact oneSection_unnamed _
  refine dbScanned_eq hclean ?_ Db.empty
  intro debug hdebug
  cases hdebug
  exact List.forall_mem_nil _

end Chericat
