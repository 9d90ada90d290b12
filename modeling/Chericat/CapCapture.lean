import Chericat.Target

/-!
`cap_capture.c`: decoding the tag bitmap of a page and capturing the
capabilities its tags mark.
-/

namespace Chericat

open Numeral

/-- `strfcap` with `%C`. -/
def strfcap (c : Capability) : Text :=
  hexText c.address.toNat ++ " [".toList ++ c.perms ++ ",".toList ++
    hexText c.base.toNat ++ "-".toList ++ hexText c.top.toNat ++ "]".toList ++
    match c.attributes with
    | none => []
    | some a => " (".toList ++ a ++ ")".toList

/-- `%15[^,]`: at most `n` characters, none of them a comma. -/
def takeSet : Nat → Text → Text × Text
  | 0, s => ([], s)
  | _ + 1, [] => ([], [])
  | n + 1, c :: cs =>
      if c = ',' then ([], c :: cs) else (c :: (takeSet n cs).1, (takeSet n cs).2)

/-- The variables `sscanf` has assigned; `none` was not reached. -/
structure Scanned where
  permsread : Text
  base : Option ULong
  top : Option ULong
deriving Repr, DecidableEq

def scanLx (s : Text) : Option (ULong × Text) :=
  (scanInteger 16 s).map fun _ =>
    (BitVec.ofNat 64 (strtoul 16 s).1, (strtoul 16 s).2)

/-- `,%lx-%lx]`, the permissions having been read. -/
def scanBounds (perms : Text) (s : Text) : Scanned :=
  match s with
  | ',' :: s =>
      match scanLx s with
      | none => ⟨perms, none, none⟩
      | some (base, '-' :: s) => ⟨perms, some base, (scanLx s).map Prod.fst⟩
      | some (base, _) => ⟨perms, some base, none⟩
  | _ => ⟨perms, none, none⟩

/-- `sscanf` with `"%lx [%15[^,],%lx-%lx] %31s"`. -/
def sscanfCap (str : Text) : Scanned :=
  match scanLx str with
  | none => ⟨[], none, none⟩
  | some (_, s) =>
      match skipSpace s with
      | '[' :: s =>
          match takeSet 15 s with
          | ([], _) => ⟨[], none, none⟩
          | (perms, s) => scanBounds perms s
      | _ => ⟨[], none, none⟩

/-- The row made of a capability buffer; `locals` are the uninitialised
`base` and `top`. -/
def capRow (locals : ULong × ULong) (addr : ULong) (path : Text)
    (copy : Capability) : CapInfo :=
  let scanned := sscanfCap (strfcap copy)
  { capLocAddr := hexText addr.toNat
    capLocPath := path
    capAddr := hexText copy.address.toNat
    perms := scanned.permsread
    base := hexText (scanned.base.getD locals.1).toNat
    top := hexText (scanned.top.getD locals.2).toNat }

/-- `get_capability`: the outcome of the request is only reported after the
row has been made. -/
def getCapability (t : Target) (m : Memory) (addr : ULong) (path : Text) :
    Scan CapInfo := do
  Run.emit (.io addr)
  pure (capRow t.scanLocals addr path (m.cap addr).copy)

/-- `tags >> 1` of a `char`. -/
def shiftChar (charSigned : Bool) (tags : BitVec 8) : BitVec 8 :=
  if charSigned then tags.sshiftRight 1 else tags >>> 1

/-- The address of bit `j` of byte `i`. -/
def granule (start : ULong) (i j : Nat) : ULong :=
  start + BitVec.ofNat 64 (i * 8 * 16) + BitVec.ofNat 64 (j * 16)

/-- One tag bit; the state is the shifted byte, the pending values and
`cap_count`. -/
def tagStep (t : Target) (m : Memory) (start : ULong) (path : Text) (i : Nat)
    (s : BitVec 8 × List CapInfo × Nat) (j : Nat) :
    Scan (BitVec 8 × List CapInfo × Nat) := do
  let tags := shiftChar t.charSigned s.1
  if s.1 &&& 1 ≠ 0 then
    let val ← getCapability t m (granule start i j) path
    pure (tags, s.2.1 ++ [val], s.2.2 + 1)
  else pure (tags, s.2)

/-- The character `'0'`, against which `get_tags` compares each byte. -/
def zeroChar : BitVec 8 := 48

/-- One byte of the bitmap. -/
def byteStep (t : Target) (m : Memory) (start : ULong) (path : Text)
    (tagsbuf : TagBuf) (s : List CapInfo × Nat) (i : Fin 32) :
    Scan (List CapInfo × Nat) := do
  if zeroChar ≠ tagsbuf[i] then
    let r ← Run.loop (tagStep t m start path i) (tagsbuf[i], s) (List.range 8)
    pure r.2
  else pure s

/-- Send the captured rows, unless there are none. -/
def insertCaptured (rows : List CapInfo) : Scan PUnit :=
  if h : rows ≠ [] then sqlQueryExec (.insertCapInfo ⟨rows, h⟩) else pure ⟨⟩

def getTags (t : Target) (m : Memory) (start : ULong) (path : Text) :
    Scan Nat := do
  Run.emit (.io start)
  match m.tags start with
  | none => pure 0
  | some tagsbuf =>
      let r ← Run.loop (byteStep t m start path tagsbuf) ([], 0)
        (List.finRange 32)
      insertCaptured r.1
      pure r.2

/-! ### What the loops compute -/

/-- The granules of byte `i` whose tags the loop sees. -/
def byteGranules (start : ULong) (tagsbuf : TagBuf) (i : Fin 32) :
    List ULong :=
  if zeroChar ≠ tagsbuf[i] then
    ((List.range 8).filter fun j => tagsbuf[i].getLsbD j).map
      (granule start i)
  else []

/-- The granules of a page that `get_tags` captures, in loop order. -/
def capturedGranules (start : ULong) (tagsbuf : TagBuf) : List ULong :=
  (List.finRange 32).flatMap (byteGranules start tagsbuf)

/-- The row `get_tags` makes for a granule. -/
def rowAt (t : Target) (m : Memory) (path : Text) (addr : ULong) : CapInfo :=
  capRow t.scanLocals addr path (m.cap addr).copy

theorem getLsbD_shiftChar (signed : Bool) (tags : BitVec 8) {i : Nat}
    (hi : i + 1 < 8) :
    (shiftChar signed tags).getLsbD i = tags.getLsbD (i + 1) := by
  cases signed
  · simp [shiftChar, BitVec.getLsbD_ushiftRight, Nat.add_comm]
  · have h8 : ¬ 8 ≤ i := by omega
    simp [shiftChar, BitVec.getLsbD_sshiftRight, h8, Nat.add_comm, hi]

theorem and_one_ne_zero_iff (tags : BitVec 8) :
    tags &&& 1 ≠ 0 ↔ tags.getLsbD 0 = true := by
  revert tags
  decide

theorem tagStep_set {t : Target} {m : Memory} {start : ULong} {path : Text}
    {i j n : Nat} {tags : BitVec 8} {vs : List CapInfo}
    (hbit : tags.getLsbD 0 = true) :
    tagStep t m start path i (tags, vs, n) j =
      ⟨[.io (granule start i j)], .ok (shiftChar t.charSigned tags,
        vs ++ [rowAt t m path (granule start i j)], n + 1)⟩ := by
  have hne : tags &&& 1 ≠ 0 := (and_one_ne_zero_iff tags).2 hbit
  rw [tagStep, if_pos hne]
  rfl

theorem tagStep_clear {t : Target} {m : Memory} {start : ULong} {path : Text}
    {i j n : Nat} {tags : BitVec 8} {vs : List CapInfo}
    (hbit : tags.getLsbD 0 = false) :
    tagStep t m start path i (tags, vs, n) j =
      ⟨[], .ok (shiftChar t.charSigned tags, vs, n)⟩ := by
  have hne : ¬ tags &&& 1 ≠ 0 := by
    rw [and_one_ne_zero_iff, hbit]
    simp
  rw [tagStep, if_neg hne]
  rfl

/-- The bit loop from bit `j` on, when the shifted byte agrees with what is
left of the byte `b` it started from. -/
theorem loop_tagStep (t : Target) (m : Memory) (start : ULong) (path : Text)
    (i : Nat) (b : BitVec 8) :
    ∀ (k j : Nat), j + k = 8 → ∀ (tags : BitVec 8) (vs : List CapInfo) (n : Nat),
      (∀ l, j + l < 8 → tags.getLsbD l = b.getLsbD (j + l)) →
      ∃ tags', Run.loop (tagStep t m start path i) (tags, vs, n)
          (List.range' j k) =
        ⟨(((List.range' j k).filter fun j => b.getLsbD j).map
            (granule start i)).map .io,
          .ok (tags',
            vs ++ (((List.range' j k).filter fun j => b.getLsbD j).map
              (granule start i)).map (rowAt t m path),
            n + ((List.range' j k).filter fun j => b.getLsbD j).length)⟩ := by
  intro k
  induction k with
  | zero =>
      intro j _ tags vs n _
      exact ⟨tags, by simp [pure]⟩
  | succ k ih =>
      intro j hjk tags vs n htags
      have hbit : tags.getLsbD 0 = b.getLsbD j := htags 0 (by omega)
      have hnext : ∀ l, j + 1 + l < 8 →
          (shiftChar t.charSigned tags).getLsbD l = b.getLsbD (j + 1 + l) := by
        intro l hl
        rw [getLsbD_shiftChar t.charSigned tags (by omega), htags _ (by omega)]
        congr 1
        omega
      rw [List.range'_succ]
      cases hb : b.getLsbD j with
      | false =>
          obtain ⟨tags', htail⟩ := ih (j + 1) (by omega) _ vs n hnext
          refine ⟨tags', ?_⟩
          rw [Run.loop_cons, tagStep_clear (hbit.trans hb), Run.mk_ok_bind, htail]
          simp [hb]
      | true =>
          obtain ⟨tags', htail⟩ := ih (j + 1) (by omega) _
            (vs ++ [rowAt t m path (granule start i j)]) (n + 1) hnext
          refine ⟨tags', ?_⟩
          rw [Run.loop_cons, tagStep_set (hbit.trans hb), Run.mk_ok_bind, htail]
          simp [hb, Nat.add_assoc, Nat.add_comm 1]

theorem byteStep_eq (t : Target) (m : Memory) (start : ULong) (path : Text)
    (tagsbuf : TagBuf) (vs : List CapInfo) (n : Nat) (i : Fin 32) :
    byteStep t m start path tagsbuf (vs, n) i =
      ⟨(byteGranules start tagsbuf i).map .io,
        .ok (vs ++ (byteGranules start tagsbuf i).map (rowAt t m path),
          n + (byteGranules start tagsbuf i).length)⟩ := by
  by_cases hzero : zeroChar = tagsbuf[i]
  · simp [byteStep, byteGranules, hzero]
    rfl
  · obtain ⟨tags', hloop⟩ := loop_tagStep t m start path i tagsbuf[i] 8 0 rfl
      tagsbuf[i] vs n (by simp)
    rw [byteStep, if_pos hzero, List.range_eq_range', hloop, byteGranules,
      if_pos hzero, List.range_eq_range']
    simp

theorem loop_byteStep (t : Target) (m : Memory) (start : ULong) (path : Text)
    (tagsbuf : TagBuf) (is : List (Fin 32)) (vs : List CapInfo) (n : Nat) :
    Run.loop (byteStep t m start path tagsbuf) (vs, n) is =
      ⟨(is.flatMap (byteGranules start tagsbuf)).map .io,
        .ok (vs ++ (is.flatMap (byteGranules start tagsbuf)).map
            (rowAt t m path),
          n + (is.flatMap (byteGranules start tagsbuf)).length)⟩ := by
  induction is generalizing vs n with
  | nil => simp [pure]
  | cons i is ih =>
      rw [Run.loop_cons, byteStep_eq, Run.mk_ok_bind, ih]
      simp [Nat.add_assoc]

/-- The statements a list of captured rows leads to. -/
def captureStatements (rows : List CapInfo) : List Statement :=
  if h : rows ≠ [] then [.insertCapInfo ⟨rows, h⟩] else []

theorem insertCaptured_eq (rows : List CapInfo) :
    insertCaptured rows =
      ⟨(captureStatements rows).map .exec, .ok ⟨⟩⟩ := by
  by_cases h : rows ≠ []
  · rw [insertCaptured, dif_pos h, captureStatements, dif_pos h]
    rfl
  · rw [insertCaptured, dif_neg h, captureStatements, dif_neg h]
    rfl

@[simp] theorem runAll_captureStatements (rows : List CapInfo) (db : Db) :
    runAll (captureStatements rows) db =
      { db with capInfo := db.capInfo ++ rows } := by
  by_cases h : rows = [] <;> simp [captureStatements, h, Statement.run]

/-- The granules of a page that are captured; none when the tag read
fails. -/
def pageGranules (m : Memory) (start : ULong) : List ULong :=
  match m.tags start with
  | none => []
  | some tagsbuf => capturedGranules start tagsbuf

/-- `get_tags` reads the captured granules in order, sends their rows in one
statement and returns their number. -/
theorem getTags_eq (t : Target) (m : Memory) (start : ULong) (path : Text) :
    getTags t m start path =
      ⟨.io start :: (pageGranules m start).map .io ++
          (captureStatements ((pageGranules m start).map
            (rowAt t m path))).map .exec,
        .ok (pageGranules m start).length⟩ := by
  cases htags : m.tags start with
  | none =>
      simp only [getTags, htags, pageGranules]
      rfl
  | some tagsbuf =>
      simp only [getTags, htags, pageGranules, loop_byteStep,
        insertCaptured_eq, capturedGranules]
      simp [Run.emit, pure]

end Chericat
