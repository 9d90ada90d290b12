import Chericat.PlainStatements
import Chericat.TagDecoding

/-!
The text of a capability, printed by `strfcap` and scanned again by
`get_capability`, and what the page loop makes of reads that fail.
-/

namespace Chericat

open Numeral SqlText

/-- The conversion `%15[^,]` takes these permissions whole. -/
structure PermsFit (perms : Text) : Prop where
  nonempty : perms ≠ []
  length_le : perms.length ≤ 15
  comma : ',' ∉ perms

/-- The row that describes a capability at `addr`. -/
def exactRow (addr : ULong) (path : Text) (cap : Capability) : CapInfo where
  capLocAddr := hexText addr.toNat
  capLocPath := path
  capAddr := hexText cap.address.toNat
  perms := cap.perms
  base := hexText cap.base.toNat
  top := hexText cap.top.toNat

/-! ### Scanning the text again -/

theorem endsNumeral_cons {b : Nat} {c : Char} (hc : isDigit b c = false)
    (rest : List Char) : EndsNumeral b (c :: rest) := by
  intro d ds h
  cases h
  exact hc

/-- `%lx` reads a printed address back. -/
theorem scanLx_hexText (a : ULong) {rest : Text} (hrest : EndsNumeral 16 rest) :
    scanLx (hexText a.toNat ++ rest) = some (a, rest) := by
  have hscan := scanInteger_hexText (Or.inr rfl) a.toNat hrest
  have hrange : ¬ ulongMax < a.toNat := by
    have := a.isLt
    rw [ulongMax]
    omega
  simp [scanLx, strtoul, hscan, hrange]

theorem takeSet_append {n : Nat} {perms : Text} (hlength : perms.length ≤ n)
    (hcomma : ',' ∉ perms) (rest : Text) :
    takeSet n (perms ++ ',' :: rest) = (perms, ',' :: rest) := by
  induction perms generalizing n with
  | nil => cases n <;> rfl
  | cons c cs ih =>
      rw [List.mem_cons, not_or] at hcomma
      rw [List.length_cons] at hlength
      obtain ⟨n, rfl⟩ : ∃ k, n = k + 1 := ⟨n - 1, by omega⟩
      have htail := ih (n := n) (by omega) hcomma.2
      rw [List.cons_append, takeSet, if_neg (Ne.symm hcomma.1), htail]

theorem length_takeSet_le (n : Nat) (s : Text) :
    (takeSet n s).1.length ≤ n := by
  induction n generalizing s with
  | zero => exact Nat.le_refl 0
  | succ n ih =>
      rcases s with - | ⟨c, cs⟩
      · exact Nat.zero_le _
      · by_cases hc : c = ','
        · simp [takeSet, hc]
        · simpa [takeSet, hc] using ih cs

theorem comma_not_mem_takeSet (n : Nat) (s : Text) :
    ',' ∉ (takeSet n s).1 := by
  induction n generalizing s with
  | zero => simp [takeSet]
  | succ n ih =>
      rcases s with - | ⟨c, cs⟩
      · simp [takeSet]
      · by_cases hc : c = ','
        · simp [takeSet, hc]
        · simpa [takeSet, hc, Ne.symm hc] using ih cs

theorem permsread_scanBounds (perms s : Text) :
    (scanBounds perms s).permsread = perms := by
  rw [scanBounds.eq_def]
  split
  · split <;> rfl
  · rfl

/-- The bounds are only reached behind permissions that fit. -/
theorem permsFit_of_base {str : Text} {base : ULong}
    (h : (sscanfCap str).base = some base) :
    PermsFit (sscanfCap str).permsread := by
  rw [sscanfCap] at h ⊢
  split at h
  · cases h
  · split at h
    · next s _ =>
        have hlength := length_takeSet_le 15 s
        have hcomma := comma_not_mem_takeSet 15 s
        rcases htaken : takeSet 15 s with ⟨- | ⟨c, cs⟩, s'⟩
        · rw [htaken] at h
          cases h
        · rw [htaken] at hlength hcomma
          simp only [permsread_scanBounds]
          exact ⟨List.cons_ne_nil c cs, hlength, hcomma⟩
    · cases h

theorem scanBounds_printed (perms : Text) (base top : ULong) (rest : Text) :
    scanBounds perms (',' :: (hexText base.toNat ++ '-' ::
        (hexText top.toNat ++ ']' :: rest))) =
      ⟨perms, some base, some top⟩ := by
  have hbase := scanLx_hexText base
    (endsNumeral_cons (c := '-') (by decide) (hexText top.toNat ++ ']' :: rest))
  have htop := scanLx_hexText top (endsNumeral_cons (c := ']') (by decide) rest)
  simp only [scanBounds, hbase, htop, Option.map_some]

/-- All conversions succeed on the text of a capability whose permissions
fit. -/
theorem sscanfCap_strfcap {cap : Capability} (h : PermsFit cap.perms) :
    sscanfCap (strfcap cap) = ⟨cap.perms, some cap.base, some cap.top⟩ := by
  obtain ⟨rest, htext⟩ : ∃ rest, strfcap cap =
      hexText cap.address.toNat ++ ' ' :: '[' :: (cap.perms ++ ',' ::
        (hexText cap.base.toNat ++ '-' ::
          (hexText cap.top.toNat ++ ']' :: rest))) := by
    simp only [strfcap, List.append_assoc]
    exact ⟨_, rfl⟩
  have hbounds := scanBounds_printed cap.perms cap.base cap.top rest
  have hperms := takeSet_append h.length_le h.comma (hexText cap.base.toNat ++
    '-' :: (hexText cap.top.toNat ++ ']' :: rest))
  have haddress := scanLx_hexText cap.address
    (endsNumeral_cons (c := ' ') (by decide) ('[' :: (cap.perms ++ ',' ::
      (hexText cap.base.toNat ++ '-' ::
        (hexText cap.top.toNat ++ ']' :: rest)))))
  have hopen (s : Text) : skipSpace (' ' :: '[' :: s) = '[' :: s := rfl
  rcases hcap : cap.perms with - | ⟨c, cs⟩
  · exact absurd hcap h.nonempty
  · rw [hcap] at hperms hbounds
    rw [htext, sscanfCap, haddress, hcap]
    simp only [hopen, hperms, hbounds]

/-! ### The row of one capability -/

/-- A variable that holds `b` whatever it held before has been assigned. -/
theorem assigned_of_forall {o : Option ULong} {b : ULong}
    (h : ∀ l : ULong, hexText (o.getD l).toNat = hexText b.toNat) :
    o = some b := by
  have hvalue (l : ULong) : o.getD l = b :=
    BitVec.eq_of_toNat_eq (hexText_injective (h l))
  cases o with
  | some a => exact congrArg some (hvalue 0)
  | none => exact absurd ((hvalue 0).trans (hvalue 1).symm) (by decide)

theorem capRow_eq_exactRow_iff {locals : ULong × ULong} {addr : ULong}
    {path : Text} {cap : Capability} :
    capRow locals addr path cap = exactRow addr path cap ↔
      (sscanfCap (strfcap cap)).permsread = cap.perms ∧
      hexText ((sscanfCap (strfcap cap)).base.getD locals.1).toNat =
        hexText cap.base.toNat ∧
      hexText ((sscanfCap (strfcap cap)).top.getD locals.2).toNat =
        hexText cap.top.toNat := by
  simp only [capRow, exactRow, CapInfo.mk.injEq, true_and]

/-- The row is that of the capability, whatever the uninitialised variables
hold, exactly when its permissions fit. -/
theorem capRow_exact_iff {addr : ULong} {path : Text} {cap : Capability} :
    (∀ locals, capRow locals addr path cap = exactRow addr path cap) ↔
      PermsFit cap.perms := by
  constructor
  · intro h
    simp only [capRow_eq_exactRow_iff] at h
    have hbase : (sscanfCap (strfcap cap)).base = some cap.base :=
      assigned_of_forall fun l => (h (l, 0)).2.1
    rw [← (h (0, 0)).1]
    exact permsFit_of_base hbase
  · intro h locals
    simp only [capRow, sscanfCap_strfcap h]
    rfl

/-- `get_capability` describes the capability it read, whatever its variables
held before, exactly when the capability has permissions and these fit the
conversion. -/
theorem getCapability_exact_iff (t : Target) (m : Memory) (addr : ULong)
    (path : Text) :
    (∀ locals, (getCapability { t with scanLocals := locals } m addr
        path).outcome = .ok (exactRow addr path (m.cap addr).copy)) ↔
      PermsFit (m.cap addr).copy.perms := by
  have hexact := @capRow_exact_iff addr path (m.cap addr).copy
  rw [← hexact]
  apply forall_congr'
  intro locals
  change Except.ok _ = Except.ok _ ↔ _
  rw [Except.ok.injEq]

/-- A tagged capability without permissions. -/
def permissionless : Memory where
  tags _ := some (.ofFirst 1)
  cap _ := ⟨true, ⟨0x2000, [], 0x2000, 0x3000, none⟩⟩

/-- The bounds in its row are whatever the variables held. -/
theorem permissionless_bounds_unset :
    (getCapability { Target.sample [] fun _ => permissionless with
        scanLocals := (7, 9) } permissionless 0x40000 []).outcome =
      .ok ⟨"0x40000".toList, [], "0x2000".toList, [], "0x7".toList,
        "0x9".toList⟩ ∧
    ¬ ∀ locals, (getCapability { Target.sample [] fun _ => permissionless with
        scanLocals := locals } permissionless 0x40000 []).outcome =
      .ok (exactRow 0x40000 [] (permissionless.cap 0x40000).copy) := by
  constructor
  · decide +kernel
  · intro h
    have hseven := h (7, 9)
    revert hseven
    decide +kernel

/-! ### The text of the rows -/

theorem takeSet_subset (n : Nat) (perms rest : Text) :
    (takeSet n (perms ++ ',' :: rest)).1 ⊆ perms := by
  induction perms generalizing n with
  | nil => cases n <;> simp [takeSet]
  | cons c cs ih =>
      cases n with
      | zero => simp [takeSet]
      | succ n =>
          rw [List.cons_append, takeSet]
          split
          · exact List.nil_subset _
          · exact List.cons_subset_cons c (ih n)

/-- What `sscanf` takes for the permissions is part of them. -/
theorem permsread_subset (cap : Capability) :
    (sscanfCap (strfcap cap)).permsread ⊆ cap.perms := by
  obtain ⟨rest, htext⟩ : ∃ rest, strfcap cap =
      hexText cap.address.toNat ++ ' ' :: '[' ::
        (cap.perms ++ ',' :: rest) := by
    simp only [strfcap, List.append_assoc]
    exact ⟨_, rfl⟩
  have haddress := scanLx_hexText cap.address (endsNumeral_cons (c := ' ')
    (by decide) ('[' :: (cap.perms ++ ',' :: rest)))
  have hopen (s : Text) : skipSpace (' ' :: '[' :: s) = '[' :: s := rfl
  have htaken := takeSet_subset 15 cap.perms rest
  rw [htext, sscanfCap, haddress]
  simp only [hopen]
  split
  · exact List.nil_subset _
  · next perms s _ heq =>
      rw [heq] at htaken
      rwa [permsread_scanBounds]

theorem rowClean_rowAt (t : Target) {m : Memory} {path : Text}
    (hpath : QuoteFree path) {addr : ULong}
    (hperms : QuoteFree (m.cap addr).copy.perms) :
    RowClean (rowAt t m path addr).fields := by
  simp only [RowClean, CapInfo.fields, rowAt, capRow, List.forall_mem_cons]
  exact ⟨quoteFree_hexText _, hpath, quoteFree_hexText _,
    fun hmem => hperms (permsread_subset _ hmem), quoteFree_hexText _,
    quoteFree_hexText _, List.forall_mem_nil _⟩

/-- Without a quote in the path or in permissions, the text that `get_tags`
sends is read as its rows. -/
theorem execTexts_getTags (t : Target) {m : Memory} {path : Text}
    (hpath : QuoteFree path) (hperms : ∀ a, QuoteFree (m.cap a).copy.perms)
    (start : ULong) (db : Db) :
    execTexts (statements (getTags t m start path).trace) db =
      { db with capInfo := db.capInfo ++
        (pageGranules m start).map (rowAt t m path) } := by
  rw [← runAll_getTags]
  apply execTexts_eq_runAll
  intro st hst
  have hsent : st ∈ captureStatements
      ((pageGranules m start).map (rowAt t m path)) := by
    simpa [getTags_eq] using hst
  rw [captureStatements] at hsent
  split at hsent
  · cases List.mem_singleton.mp hsent
    refine Statement.Clean.faithful (fun row hrow => ?_) rfl
    obtain ⟨a, _, rfl⟩ := List.mem_map.1 hrow
    exact rowClean_rowAt t hpath (hperms a)
  · cases hsent

/-! ### Reads that fail -/

/-- The tagged granules of a page whose capability could be read. -/
def readBits (m : Memory) (start : ULong) (tagsbuf : TagBuf) :
    List (Fin 32 × Fin 8) :=
  (setBits tagsbuf).filter fun b => (m.cap (bitAddress start b)).succeeded

/-- The rows of these granules. -/
def readRows (m : Memory) (start : ULong) (path : Text) : List CapInfo :=
  match m.tags start with
  | none => []
  | some tagsbuf => (readBits m start tagsbuf).map fun b =>
      exactRow (bitAddress start b) path (m.cap (bitAddress start b)).copy

/-- Only the granules that could be read have rows, as SQLite reads the text
that is sent, and are counted. -/
structure FailuresUntraced (t : Target) (m : Memory) (start : ULong)
    (path : Text) : Prop where
  inserted : ∀ db, execTexts (statements (getTags t m start path).trace) db =
    { db with capInfo := db.capInfo ++ readRows m start path }
  count : (getTags t m start path).outcome =
    .ok (readRows m start path).length

/-- The loop captures a tagged granule just when it can be read, and the
permissions of those that can fit. -/
structure CapturesReads (m : Memory) (start : ULong) (tagsbuf : TagBuf) :
    Prop where
  captured : ∀ b ∈ setBits tagsbuf, (b ∈ capturedBits tagsbuf ↔
    (m.cap (bitAddress start b)).succeeded = true)
  perms : ∀ b ∈ setBits tagsbuf, (m.cap (bitAddress start b)).succeeded = true →
    PermsFit (m.cap (bitAddress start b)).copy.perms

theorem bitAddress_injective (start : ULong) :
    Function.Injective (bitAddress start) := by
  intro a b h
  have hsum := BitVec.toNat_inj.mpr h
  simp only [bitAddress, BitVec.toNat_add, BitVec.toNat_ofNat] at hsum
  have hstart := start.isLt
  apply Prod.ext
  · exact Fin.ext (by omega)
  · exact Fin.ext (by omega)

theorem failuresUntraced_iff {t : Target} {m : Memory} {start : ULong}
    {path : Text} (hpath : QuoteFree path)
    (hperms : ∀ a, QuoteFree (m.cap a).copy.perms) :
    FailuresUntraced t m start path ↔
      (pageGranules m start).map (rowAt t m path) = readRows m start path := by
  constructor
  · intro h
    have hrows := h.inserted Db.empty
    rw [execTexts_getTags t hpath hperms] at hrows
    simpa [Db.empty] using congrArg Db.capInfo hrows
  · intro h
    constructor
    · intro db
      rw [execTexts_getTags t hpath hperms, h]
    · rw [getTags_eq, ← h, List.length_map]

section Captured

variable {m : Memory} {start : ULong} {path : Text} {tagsbuf : TagBuf}

/-- Rows determine the granules they are at. -/
theorem bits_eq_of_rows {f g : Fin 32 × Fin 8 → CapInfo}
    (hf : ∀ b, (f b).capLocAddr = hexText (bitAddress start b).toNat)
    (hg : ∀ b, (g b).capLocAddr = hexText (bitAddress start b).toNat)
    {as bs : List (Fin 32 × Fin 8)} (h : as.map f = bs.map g) : as = bs := by
  have hlocated := congrArg (List.map CapInfo.capLocAddr) h
  have hleft : CapInfo.capLocAddr ∘ f =
      fun b => hexText (bitAddress start b).toNat := funext hf
  have hright : CapInfo.capLocAddr ∘ g =
      fun b => hexText (bitAddress start b).toNat := funext hg
  rw [List.map_map, List.map_map, hleft, hright] at hlocated
  refine List.map_injective_iff.mpr ?_ hlocated
  intro a b hab
  exact bitAddress_injective start
    (BitVec.eq_of_toNat_eq (hexText_injective hab))

theorem capturedBits_eq_readBits_iff :
    capturedBits tagsbuf = readBits m start tagsbuf ↔
      ∀ b ∈ setBits tagsbuf, (b ∈ capturedBits tagsbuf ↔
        (m.cap (bitAddress start b)).succeeded = true) := by
  constructor
  · intro h b hb
    rw [h, readBits, List.mem_filter, and_iff_right hb]
  · intro h
    apply List.filter_congr
    intro b hb
    have hcaptured := h b hb
    rw [capturedBits, List.mem_filter, and_iff_right hb] at hcaptured
    exact Bool.eq_iff_iff.mpr hcaptured

/-- All rows of a page, whatever the uninitialised variables hold. -/
theorem capturedRows_iff :
    (∀ locals, (capturedBits tagsbuf).map (fun b =>
        capRow locals (bitAddress start b) path
          (m.cap (bitAddress start b)).copy) =
      (readBits m start tagsbuf).map (fun b =>
        exactRow (bitAddress start b) path
          (m.cap (bitAddress start b)).copy)) ↔
      CapturesReads m start tagsbuf := by
  constructor
  · intro h
    have hbits : capturedBits tagsbuf = readBits m start tagsbuf :=
      bits_eq_of_rows (fun _ => rfl) (fun _ => rfl) (h (0, 0))
    refine ⟨capturedBits_eq_readBits_iff.mp hbits, ?_⟩
    intro b hb hread
    apply capRow_exact_iff.mp
    intro locals
    have hrows := h locals
    rw [hbits] at hrows
    exact List.map_inj_left.mp hrows b (List.mem_filter.mpr ⟨hb, hread⟩)
  · intro h locals
    rw [capturedBits_eq_readBits_iff.mpr h.captured]
    apply List.map_congr_left
    intro b hb
    obtain ⟨hset, hread⟩ := List.mem_filter.mp hb
    exact capRow_exact_iff.mpr (h.perms b hset hread) locals

end Captured

/-- Reads that fail leave no trace exactly when the tag bitmap cannot be read,
or every tagged granule outside the bytes equal to the character `'0'` can be
read and has permissions that fit, and none inside such a byte can be read. -/
theorem failuresUntraced_forall_iff (t : Target) {m : Memory} (start : ULong)
    {path : Text} (hpath : QuoteFree path)
    (hperms : ∀ a, QuoteFree (m.cap a).copy.perms) :
    (∀ locals, FailuresUntraced { t with scanLocals := locals } m start
        path) ↔
      ∀ tagsbuf, m.tags start = some tagsbuf →
        CapturesReads m start tagsbuf := by
  have huntraced (locals : ULong × ULong) := @failuresUntraced_iff
    { t with scanLocals := locals } m start path hpath hperms
  simp only [huntraced]
  cases htags : m.tags start with
  | none => simp [pageGranules_none htags, readRows, htags]
  | some tagsbuf =>
      simp only [pageGranules_some htags, readRows, htags, List.map_map,
        Option.some.injEq, forall_eq']
      exact capturedRows_iff

/-- One tagged granule, whose read succeeds. -/
def readable : Memory where
  tags _ := some (.ofFirst 1)
  cap _ := ⟨true, ⟨0x2000, "rw".toList, 0x2000, 0x3000, none⟩⟩

/-- A page without failures has the row of its granule. -/
theorem readable_untraced :
    (readRows readable 0x40000 "Stack".toList).length = 1 ∧
      ∀ locals, FailuresUntraced { Target.sample [] fun _ => readable with
        scanLocals := locals } readable 0x40000 "Stack".toList := by
  refine ⟨by decide +kernel, ?_⟩
  refine (failuresUntraced_forall_iff _ 0x40000 (by decide)
    fun _ => (by decide : QuoteFree "rw".toList)).2 ?_
  intro tagsbuf htags
  cases htags
  have hbits : setBits (.ofFirst 1) = capturedBits (.ofFirst 1) := by
    decide +kernel
  have hperms : PermsFit "rw".toList := ⟨by decide, by decide, by decide⟩
  exact ⟨fun b hb => iff_of_true (hbits ▸ hb) rfl, fun _ _ _ => hperms⟩

/-- One tagged granule, whose read fails. -/
def unreadable : Memory where
  tags _ := some (.ofFirst 1)
  cap _ := ⟨false, ⟨0x2000, "rw".toList, 0x2000, 0x3000, none⟩⟩

/-- Its row is inserted, and counted, all the same. -/
theorem unreadable_counted :
    readRows unreadable 0x40000 [] = [] ∧
      (getTags (Target.sample [] fun _ => unreadable) unreadable 0x40000
        []).outcome = .ok 1 ∧
      ¬ FailuresUntraced (Target.sample [] fun _ => unreadable) unreadable
        0x40000 [] := by
  have hrows : readRows unreadable 0x40000 [] = [] := by decide +kernel
  have hcount : (getTags (Target.sample [] fun _ => unreadable) unreadable
      0x40000 []).outcome = .ok 1 := by
    rw [getTags_eq]
    decide +kernel
  refine ⟨hrows, hcount, fun h => ?_⟩
  have huntraced := h.count
  rw [hrows, hcount] at huntraced
  cases huntraced

end Chericat
