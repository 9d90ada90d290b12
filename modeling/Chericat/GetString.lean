import Mathlib.Data.List.Basic
import Chericat.Target

/-!
`get_string`: a string of the target is read up to the end of its first page,
and on into the next one, in a buffer that grows with the reads.
-/

namespace Chericat

abbrev Byte := BitVec 8

/-- The memory of the target, and whether an allocation of so many bytes
succeeds here. -/
structure RemoteMemory where
  readable : Nat → Bool
  byte : ULong → Byte
  allocates : Nat → Bool

def pageSize : Nat := 4096

def ptraceReadStringMaxsize : Nat := 4096

def pageNumber (a : ULong) : Nat := a.toNat / pageSize

/-- The address `k` bytes on. -/
def offsetBy (addr : ULong) (k : Nat) : ULong := addr + BitVec.ofNat 64 k

namespace RemoteMemory

def bytesAt (m : RemoteMemory) (addr : ULong) (n : Nat) : List Byte :=
  (List.range n).map fun k => m.byte (offsetBy addr k)

/-- `PT_IO`, which fills the request or fails. -/
def readData (m : RemoteMemory) (addr : ULong) (size : Nat) :
    Option (List Byte) :=
  if (List.range size).all fun k => m.readable (pageNumber (offsetBy addr k)) then
    some (m.bytesAt addr size)
  else none

end RemoteMemory

/-- A request of the loop, and the three sizes at it. -/
structure StringRequest where
  remote : ULong
  offset : Nat
  size : Nat
  totalsize : Nat
deriving Repr, DecidableEq

/-- The local buffer; `none` has not been written. -/
abbrev Buffer := List (Option Byte)

/-- The local variables of `get_string`. -/
structure StringState where
  buf : Buffer
  offset : Nat
  size : Nat
  totalsize : Nat
deriving Repr, DecidableEq

/-- What a read leaves in the buffer. -/
def storeBytes (buf : Buffer) (offset : Nat) (bytes : List Byte) : Buffer :=
  buf.take offset ++ bytes.map some ++ buf.drop (offset + bytes.length)

/-- `buf[totalsize - 1] = '\0'`. -/
def terminate (buf : Buffer) (totalsize : Nat) : Buffer :=
  buf.set (totalsize - 1) (some 0)

abbrev StringRun := Run StringRequest Stop

/-- The endless loop, for so many turns. -/
def stringLoop (m : RemoteMemory) (addr : ULong) (max : CInt) :
    Nat → StringState → StringRun (Option Buffer)
  | 0, _ => Run.stop .endless
  | turns + 1, st => do
      Run.emit ⟨offsetBy addr st.offset, st.offset, st.size, st.totalsize⟩
      match m.readData (offsetBy addr st.offset) st.size with
      | none => pure none
      | some bytes =>
          let buf := storeBytes st.buf st.offset bytes
          if 0 ∈ bytes then pure (some buf)
          else if st.totalsize < ptraceReadStringMaxsize ∧ max = 0 then
            let size := min (ptraceReadStringMaxsize - st.totalsize) pageSize
            if m.allocates (st.totalsize + size) then
              stringLoop m addr max turns
                { buf := buf ++ List.replicate size none
                  offset := st.offset + st.size
                  size := size
                  totalsize := st.totalsize + size }
            else pure (some (terminate buf st.totalsize))
          else pure (some (terminate buf st.totalsize))

/-- The size of the first request: `max + 1`, or what is left of the page. -/
def firstSize (addr : ULong) (max : CInt) : Nat :=
  if max ≠ 0 then ((max + 1).signExtend 64).toNat
  else min (pageSize - addr.toNat % pageSize) ptraceReadStringMaxsize

def RemoteMemory.getString (m : RemoteMemory) (addr : ULong) (max : CInt)
    (turns : Nat) : StringRun (Option Buffer) :=
  let size := firstSize addr max
  if m.allocates size then
    stringLoop m addr max turns ⟨List.replicate size none, 0, size, size⟩
  else pure none

/-- The string in a buffer; `none` where it runs into a byte that was not
written, or off the end. -/
def cString : Buffer → Option (List Byte)
  | [] => none
  | none :: _ => none
  | some b :: rest => if b = 0 then some [] else (cString rest).map (b :: ·)

/-! ### Bytes and pages -/

theorem cString_map_some {bytes : List Byte} (h : 0 ∉ bytes) (rest : Buffer) :
    cString (bytes.map some ++ some 0 :: rest) = some bytes := by
  induction bytes with
  | nil => rfl
  | cons b bytes ih =>
      rw [List.mem_cons, not_or] at h
      rw [List.map_cons, List.cons_append, cString, if_neg (Ne.symm h.1),
        ih h.2]
      rfl

theorem offsetBy_add (addr : ULong) (k l : Nat) :
    offsetBy (offsetBy addr k) l = offsetBy addr (k + l) := by
  rw [offsetBy, offsetBy, offsetBy, BitVec.add_assoc, ← BitVec.ofNat_add]

@[simp] theorem offsetBy_zero (addr : ULong) : offsetBy addr 0 = addr := by
  simp [offsetBy]

namespace RemoteMemory

variable {m : RemoteMemory} {addr : ULong}

@[simp] theorem length_bytesAt (n : Nat) : (m.bytesAt addr n).length = n := by
  simp [bytesAt]

theorem bytesAt_add (k n : Nat) :
    m.bytesAt addr (k + n) =
      m.bytesAt addr k ++ m.bytesAt (offsetBy addr k) n := by
  simp only [bytesAt, List.range_add, List.map_append, List.map_map,
    Function.comp_def, offsetBy_add]

theorem zero_mem_bytesAt {n : Nat} :
    0 ∈ m.bytesAt addr n ↔ ∃ k < n, m.byte (offsetBy addr k) = 0 := by
  simp [bytesAt]

theorem readData_eq_some {size : Nat} {bytes : List Byte} :
    m.readData addr size = some bytes ↔
      (∀ k < size, m.readable (pageNumber (offsetBy addr k)) = true) ∧
        bytes = m.bytesAt addr size := by
  rw [readData, ite_eq_iff]
  simp [@eq_comm _ bytes]

/-- A request inside of a page fails with this page. -/
theorem readData_eq_none {size : Nat} (h : addr.toNat % pageSize + size ≤ pageSize)
    (hnone : m.readData addr size = none) :
    m.readable (pageNumber addr) = false := by
  by_contra hreadable
  rw [Bool.not_eq_false] at hreadable
  have hall : m.readData addr size = some (m.bytesAt addr size) := by
    refine readData_eq_some.mpr ⟨fun k hk => ?_, rfl⟩
    have hpage : pageNumber (offsetBy addr k) = pageNumber addr := by
      have haddr := addr.isLt
      simp only [pageNumber, offsetBy, pageSize, BitVec.toNat_add,
        BitVec.toNat_ofNat] at h ⊢
      omega
    rw [hpage, hreadable]
  exact absurd (hnone.symm.trans hall) nofun

end RemoteMemory

/-! ### How the string may end -/

/-- The bytes before the `n`-th are not `NUL`. -/
def NoNul (m : RemoteMemory) (addr : ULong) (n : Nat) : Prop :=
  ∀ k < n, m.byte (offsetBy addr k) ≠ 0

/-- The pages of the first `n` bytes can be read. -/
def Readable (m : RemoteMemory) (addr : ULong) (n : Nat) : Prop :=
  ∀ k < n, m.readable (pageNumber (offsetBy addr k)) = true

/-- A page that had to be read could not be, or a `NUL` was found, or there
was none and the buffer was cut off. -/
inductive StringEnds (m : RemoteMemory) (addr : ULong) :
    Option Buffer → Prop where
  | unread {n : Nat} (hn : n < ptraceReadStringMaxsize)
      (hbefore : NoNul m addr n)
      (hpage : m.readable (pageNumber (offsetBy addr n)) = false) :
      StringEnds m addr none
  | found (n : Nat) {buf : Buffer} (hn : n ≤ ptraceReadStringMaxsize)
      (hpages : Readable m addr n) (hnul : 0 ∈ m.bytesAt addr n)
      (hbuf : buf = (m.bytesAt addr n).map some) :
      StringEnds m addr (some buf)
  | cut {buf : Buffer} (hpages : Readable m addr ptraceReadStringMaxsize)
      (hbefore : NoNul m addr ptraceReadStringMaxsize)
      (hbuf : buf = terminate
        ((m.bytesAt addr ptraceReadStringMaxsize).map some)
        ptraceReadStringMaxsize) :
      StringEnds m addr (some buf)

/-- A request stays in the buffer, and is made only when no `NUL` was found in
what was read before. -/
structure RequestSound (m : RemoteMemory) (addr : ULong) (q : StringRequest) :
    Prop where
  inBounds : q.offset + q.size ≤ q.totalsize
  before : NoNul m addr q.offset

structure RunSound (m : RemoteMemory) (addr : ULong)
    (run : StringRun (Option Buffer)) : Prop where
  ends : ∃ r, run.outcome = .ok r ∧ StringEnds m addr r
  requests : ∀ q ∈ run.trace, RequestSound m addr q

/-- Before a request: what was read stands in the buffer and holds no `NUL`,
the request fills the rest of the buffer and stays in its page, and after it
the limit or the end of the page is reached. -/
structure StringState.Before (m : RemoteMemory) (addr : ULong)
    (st : StringState) : Prop where
  buf : st.buf = (m.bytesAt addr st.offset).map some ++
    List.replicate st.size none
  sizes : st.offset + st.size = st.totalsize
  pos : 0 < st.size
  limit : st.totalsize ≤ ptraceReadStringMaxsize
  inPage : (offsetBy addr st.offset).toNat % pageSize + st.size ≤ pageSize
  boundary : st.totalsize < ptraceReadStringMaxsize →
    (offsetBy addr st.totalsize).toNat % pageSize = 0
  noNul : NoNul m addr st.offset
  read : Readable m addr st.offset

namespace StringState.Before

variable {m : RemoteMemory} {addr : ULong} {st : StringState}

theorem storeBytes_eq (h : st.Before m addr) :
    storeBytes st.buf st.offset (m.bytesAt (offsetBy addr st.offset) st.size) =
      (m.bytesAt addr st.totalsize).map some := by
  have hlength : ((m.bytesAt addr st.offset).map some).length = st.offset := by
    rw [List.length_map, RemoteMemory.length_bytesAt]
  rw [storeBytes, h.buf, List.take_left' hlength,
    List.drop_eq_nil_of_le (by simp), List.append_nil, ← List.map_append,
    ← RemoteMemory.bytesAt_add, h.sizes]

theorem request (h : st.Before m addr) :
    RequestSound m addr
      ⟨offsetBy addr st.offset, st.offset, st.size, st.totalsize⟩ :=
  ⟨Nat.le_of_eq h.sizes, h.noNul⟩

/-- The pages read so far and the one of the request. -/
theorem readable (h : st.Before m addr)
    (hread : ∀ k < st.size,
      m.readable (pageNumber (offsetBy (offsetBy addr st.offset) k)) = true) :
    Readable m addr st.totalsize := by
  intro k hk
  by_cases hold : k < st.offset
  · exact h.read k hold
  · have hsizes := h.sizes
    have hpage := hread (k - st.offset) (by omega)
    rwa [offsetBy_add, Nat.add_sub_cancel' (by omega)] at hpage

theorem noNul_of_not_mem (h : st.Before m addr)
    (hbytes : 0 ∉ m.bytesAt (offsetBy addr st.offset) st.size) :
    NoNul m addr st.totalsize := by
  intro k hk hzero
  by_cases hold : k < st.offset
  · exact h.noNul k hold hzero
  · have hsizes := h.sizes
    apply hbytes
    rw [RemoteMemory.zero_mem_bytesAt]
    refine ⟨k - st.offset, by omega, ?_⟩
    rwa [offsetBy_add, Nat.add_sub_cancel' (by omega)]

/-- The state before the next request. -/
theorem next (h : st.Before m addr)
    (hlimit : st.totalsize < ptraceReadStringMaxsize)
    (hnul : NoNul m addr st.totalsize) (hread : Readable m addr st.totalsize) :
    StringState.Before m addr
      { buf := (m.bytesAt addr st.totalsize).map some ++
          List.replicate
            (min (ptraceReadStringMaxsize - st.totalsize) pageSize) none
        offset := st.offset + st.size
        size := min (ptraceReadStringMaxsize - st.totalsize) pageSize
        totalsize := st.totalsize +
          min (ptraceReadStringMaxsize - st.totalsize) pageSize } := by
  have hboundary := h.boundary hlimit
  simp only [ptraceReadStringMaxsize, pageSize] at hlimit hboundary ⊢
  rw [h.sizes]
  constructor
  · rfl
  · rfl
  · dsimp only
    omega
  · dsimp only [ptraceReadStringMaxsize]
    omega
  · dsimp only [pageSize]
    omega
  · dsimp only [ptraceReadStringMaxsize]
    omega
  · exact hnul
  · exact hread

end StringState.Before

section Loop

variable {m : RemoteMemory} {addr : ULong} {st : StringState} {turns : Nat}

/-- One turn of the loop, where the turns that may follow are sound. -/
theorem stringLoop_step (hallocates : ∀ n, m.allocates n = true)
    (h : st.Before m addr)
    (hnext : st.totalsize < ptraceReadStringMaxsize → ∀ st',
      StringState.Before m addr st' →
      st'.totalsize = ptraceReadStringMaxsize →
      RunSound m addr (stringLoop m addr 0 turns st')) :
    RunSound m addr (stringLoop m addr 0 (turns + 1) st) := by
  have hrequest := h.request
  have hsizes := h.sizes
  have hlimit := h.limit
  have hpos := h.pos
  rw [stringLoop]
  rcases hdata : m.readData (offsetBy addr st.offset) st.size with - | bytes
  · have hpage := RemoteMemory.readData_eq_none h.inPage hdata
    constructor
    · exact ⟨none, rfl, .unread (by omega) h.noNul hpage⟩
    · simpa [Run.emit, pure] using hrequest
  · obtain ⟨hpages, rfl⟩ := RemoteMemory.readData_eq_some.mp hdata
    have hread := h.readable hpages
    dsimp only
    rw [h.storeBytes_eq]
    by_cases hzero : 0 ∈ m.bytesAt (offsetBy addr st.offset) st.size
    · rw [if_pos hzero]
      have hnul : 0 ∈ m.bytesAt addr st.totalsize := by
        rw [← hsizes, RemoteMemory.bytesAt_add]
        exact List.mem_append_right _ hzero
      constructor
      · exact ⟨_, rfl, .found _ hlimit hread hnul rfl⟩
      · simpa [Run.emit, pure] using hrequest
    · have hnul := h.noNul_of_not_mem hzero
      rw [if_neg hzero]
      by_cases hmore : st.totalsize < ptraceReadStringMaxsize
      · rw [if_pos ⟨hmore, rfl⟩, if_pos (hallocates _)]
        have hafter := hnext hmore _ (h.next hmore hnul hread) (by
          simp only [ptraceReadStringMaxsize, pageSize] at hmore ⊢
          omega)
        obtain ⟨r, hr, hends⟩ := hafter.ends
        constructor
        · exact ⟨r, hr, hends⟩
        · intro q hq
          rcases List.mem_cons.mp hq with rfl | hq
          · exact hrequest
          · exact hafter.requests q hq
      · rw [if_neg (fun hand => hmore hand.1)]
        have htotal : st.totalsize = ptraceReadStringMaxsize := by omega
        rw [htotal] at hnul hread hrequest ⊢
        constructor
        · exact ⟨_, rfl, .cut hread hnul rfl⟩
        · simpa [Run.emit, pure] using hrequest

/-- The first request is what is left of the page. -/
theorem before_start (m : RemoteMemory) (addr : ULong) :
    StringState.Before m addr
      ⟨List.replicate (firstSize addr 0) none, 0, firstSize addr 0,
        firstSize addr 0⟩ := by
  have haddr := addr.isLt
  have hsize : firstSize addr 0 = 4096 - addr.toNat % 4096 := by
    simp only [firstSize, pageSize, ptraceReadStringMaxsize]
    simp
  rw [hsize]
  constructor
  · rfl
  · exact Nat.zero_add _
  · dsimp only
    omega
  · dsimp only [ptraceReadStringMaxsize]
    omega
  · simp only [offsetBy_zero, pageSize]
    omega
  · intro hlimit
    simp only [ptraceReadStringMaxsize] at hlimit
    simp only [offsetBy, pageSize, BitVec.toNat_add, BitVec.toNat_ofNat]
    omega
  · exact fun k hk => absurd hk (Nat.not_lt_zero k)
  · exact fun k hk => absurd hk (Nat.not_lt_zero k)

variable (addr) in
/-- Two turns are enough. -/
theorem getString_sound (hallocates : ∀ n, m.allocates n = true)
    (hturns : 2 ≤ turns) : RunSound m addr (m.getString addr 0 turns) := by
  obtain ⟨turns, rfl⟩ : ∃ k, turns = k + 1 + 1 := ⟨turns - 2, by omega⟩
  rw [RemoteMemory.getString, if_pos (hallocates _)]
  apply stringLoop_step hallocates (before_start m addr)
  intro _ st hst htotal
  apply stringLoop_step hallocates hst
  intro hless
  omega

end Loop

/-! ### The string -/

theorem RemoteMemory.bytesAt_eq_append (m : RemoteMemory) (addr : ULong)
    {k n : Nat} (h : k < n) :
    ∃ rest, m.bytesAt addr n =
      m.bytesAt addr k ++ m.byte (offsetBy addr k) :: rest := by
  obtain ⟨l, rfl⟩ : ∃ l, n = k + (l + 1) := ⟨n - k - 1, by omega⟩
  refine ⟨m.bytesAt (offsetBy (offsetBy addr k) 1) l, ?_⟩
  rw [RemoteMemory.bytesAt_add, Nat.add_comm l 1, RemoteMemory.bytesAt_add]
  simp [RemoteMemory.bytesAt]

theorem not_mem_bytesAt {m : RemoteMemory} {addr : ULong} {n : Nat}
    (h : NoNul m addr n) : 0 ∉ m.bytesAt addr n := by
  rw [RemoteMemory.zero_mem_bytesAt]
  rintro ⟨k, hk, hzero⟩
  exact h k hk hzero

/-- Bytes that hold a `NUL` go beyond those that do not. -/
theorem lt_of_zero_mem {m : RemoteMemory} {addr : ULong} {k n : Nat}
    (hnul : 0 ∈ m.bytesAt addr n) (hbefore : NoNul m addr k) : k < n := by
  obtain ⟨i, hi, hzero⟩ := RemoteMemory.zero_mem_bytesAt.mp hnul
  by_contra hge
  exact hbefore i (by omega) hzero

/-- The first `NUL` of bytes that hold one. -/
theorem exists_first_nul {m : RemoteMemory} {addr : ULong} {n : Nat}
    (h : ¬ NoNul m addr n) :
    ∃ k < n, NoNul m addr k ∧ m.byte (offsetBy addr k) = 0 := by
  induction n with
  | zero => exact absurd (fun k hk => absurd hk (Nat.not_lt_zero k)) h
  | succ n ih =>
      by_cases hbefore : NoNul m addr n
      · refine ⟨n, Nat.lt_succ_self n, hbefore, ?_⟩
        by_contra hlast
        apply h
        intro k hk
        rcases Nat.lt_succ_iff_lt_or_eq.mp hk with hk | rfl
        · exact hbefore k hk
        · exact hlast
      · obtain ⟨k, hk, hfirst⟩ := ih hbefore
        exact ⟨k, Nat.lt_succ_of_lt hk, hfirst⟩

/-- `get_string` of a string at `addr`, without a limit of the caller. -/
structure ReadsString (m : RemoteMemory) (addr : ULong)
    (run : StringRun (Option Buffer)) : Prop where
  ends : ∃ r, run.outcome = .ok r
  inBounds : ∀ q ∈ run.trace, q.offset + q.size ≤ q.totalsize
  onDemand : ∀ q ∈ run.trace, NoNul m addr q.offset
  short : ∀ buf k, run.outcome = .ok (some buf) →
    k < ptraceReadStringMaxsize → NoNul m addr k →
    m.byte (offsetBy addr k) = 0 → cString buf = some (m.bytesAt addr k)
  long : ∀ buf, run.outcome = .ok (some buf) →
    NoNul m addr ptraceReadStringMaxsize →
    cString buf = some (m.bytesAt addr (ptraceReadStringMaxsize - 1))
  null : run.outcome = .ok none ↔ ∃ k < ptraceReadStringMaxsize,
    NoNul m addr k ∧ m.readable (pageNumber (offsetBy addr k)) = false

namespace StringEnds

variable {m : RemoteMemory} {addr : ULong} {buf : Buffer}

theorem short (h : StringEnds m addr (some buf)) {k : Nat}
    (hk : k < ptraceReadStringMaxsize) (hbefore : NoNul m addr k)
    (hzero : m.byte (offsetBy addr k) = 0) :
    cString buf = some (m.bytesAt addr k) := by
  rcases h with - | ⟨n, _, _, hnul, rfl⟩ | ⟨_, hnone, _⟩
  · have hkn := lt_of_zero_mem hnul hbefore
    obtain ⟨rest, hrest⟩ := m.bytesAt_eq_append addr hkn
    rw [hrest, hzero, List.map_append, List.map_cons]
    exact cString_map_some (not_mem_bytesAt hbefore) _
  · exact absurd hzero (hnone k hk)

theorem long (h : StringEnds m addr (some buf))
    (hbefore : NoNul m addr ptraceReadStringMaxsize) :
    cString buf = some (m.bytesAt addr (ptraceReadStringMaxsize - 1)) := by
  rcases h with - | ⟨n, hn, _, hnul, _⟩ | ⟨_, _, hbuf⟩
  · obtain ⟨i, hi, hizero⟩ := RemoteMemory.zero_mem_bytesAt.mp hnul
    exact absurd hizero (hbefore i (by omega))
  · have hlast : NoNul m addr (ptraceReadStringMaxsize - 1) :=
      fun k hk => hbefore k (by omega)
    have hless : ptraceReadStringMaxsize - 1 < ptraceReadStringMaxsize := by
      decide
    obtain ⟨rest, hrest⟩ := m.bytesAt_eq_append addr hless
    rw [hbuf, terminate, hrest, List.map_append, List.map_cons,
      List.set_append_right _ _ (by simp)]
    simp only [List.length_map, RemoteMemory.length_bytesAt, Nat.sub_self,
      List.set_cons_zero]
    exact cString_map_some (not_mem_bytesAt hlast) _

/-- `NULL` is the answer where a page that was needed could not be read. -/
theorem null_iff {r : Option Buffer} (h : StringEnds m addr r) :
    r = none ↔ ∃ k < ptraceReadStringMaxsize,
      NoNul m addr k ∧ m.readable (pageNumber (offsetBy addr k)) = false := by
  constructor
  · intro hr
    rcases h with ⟨hn, hbefore, hpage⟩ | - | -
    · exact ⟨_, hn, hbefore, hpage⟩
    · cases hr
    · cases hr
  · rintro ⟨k, hk, hbefore, hpage⟩
    rcases h with - | ⟨n, _, hpages, hnul, _⟩ | ⟨hpages, _, _⟩
    · rfl
    · have hkn := lt_of_zero_mem hnul hbefore
      exact absurd (hpage.symm.trans (hpages k hkn)) (by decide)
    · exact absurd (hpage.symm.trans (hpages k hk)) (by decide)

end StringEnds

/-- Where every allocation succeeds, `get_string` without a limit ends, stays in
its buffer, and returns the string up to its first `NUL` or its first 4095
bytes; `NULL` exactly where a page that must be read cannot be. -/
theorem getString_readsString {m : RemoteMemory}
    (hallocates : ∀ n, m.allocates n = true) (addr : ULong) {turns : Nat}
    (hturns : 2 ≤ turns) :
    ReadsString m addr (m.getString addr 0 turns) := by
  obtain ⟨⟨r, hr, hends⟩, hrequests⟩ :=
    getString_sound addr hallocates hturns
  constructor
  · exact ⟨r, hr⟩
  · exact fun q hq => (hrequests q hq).inBounds
  · exact fun q hq => (hrequests q hq).before
  · intro buf k hbuf hk hbefore hzero
    cases hr.symm.trans hbuf
    exact hends.short hk hbefore hzero
  · intro buf hbuf hbefore
    cases hr.symm.trans hbuf
    exact hends.long hbefore
  · rw [hr, Except.ok.injEq]
    exact hends.null_iff

/-- Four letters across the end of a page, and the page behind it. -/
def acrossPages : RemoteMemory where
  readable page := page ≤ 2
  byte a := if a = 0x2002 then 0 else 65
  allocates _ := true

/-- Two requests are made for them. -/
theorem string_across_pages :
    ReadsString acrossPages 0x1ffe (acrossPages.getString 0x1ffe 0 2) ∧
      (acrossPages.getString 0x1ffe 0 2).trace =
        [⟨0x1ffe, 0, 2, 2⟩, ⟨0x2000, 2, 4094, 4096⟩] :=
  ⟨getString_readsString (fun _ => rfl) 0x1ffe (Nat.le_refl 2), by
    decide +kernel⟩

end Chericat
