import Chericat.SeenEntries

/-!
The bookkeeping of the block loop: the growing buffer `seen_kivp`, the three
counters beside it and the array of section records.  The loop with this
bookkeeping refines the loop over the lists `seen` and `ssect`.
-/

namespace Chericat

/-! ### The buffer and its counters -/

/-- `seen_kivp`, its size and capacity, and the two indices.  All count entries
of the map, whose number `procstat` gives as an `int`, and are natural numbers
here. -/
structure SeenBuffer where
  /-- The allocated cells; `none` has not been stored to. -/
  seenKivp : List (Option KinfoVmentry)
  seenKivpBufferSize : Nat
  seenKivpBufferCapacity : Nat
  seenIndex : Nat
  ssectIndex : Nat
deriving Repr, DecidableEq

def initialSize : Nat := 100

def SeenBuffer.start : SeenBuffer where
  seenKivp := List.replicate initialSize none
  seenKivpBufferSize := 0
  seenKivpBufferCapacity := initialSize
  seenIndex := 0
  ssectIndex := 0

/-- The cells below `seen_index`, through which both searches go. -/
def SeenBuffer.seen (b : SeenBuffer) : List KinfoVmentry :=
  (b.seenKivp.take b.seenIndex).filterMap id

/-- A full buffer is doubled; `realloc` keeps the cells. -/
def SeenBuffer.grow (b : SeenBuffer) : SeenBuffer :=
  if b.seenKivpBufferSize = b.seenKivpBufferCapacity then
    { b with
      seenKivpBufferCapacity := b.seenKivpBufferCapacity * 2
      seenKivp := b.seenKivp ++ List.replicate
        (b.seenKivpBufferCapacity * 2 - b.seenKivp.length) none }
  else b

/-- `seen_kivp[seen_index] = *kivp` and the size. -/
def SeenBuffer.store (b : SeenBuffer) (kivp : KinfoVmentry) : SeenBuffer :=
  { b with
    seenKivp := b.seenKivp.set b.seenIndex (some kivp)
    seenKivpBufferSize := b.seenKivpBufferSize + 1 }

/-- `ssect_index++` in the call of `get_elf_info`, and `seen_index++`. -/
def SeenBuffer.advance (b : SeenBuffer) : SeenBuffer :=
  { b with
    ssectIndex := b.ssectIndex + 1
    seenIndex := b.seenIndex + 1 }

/-! ### The loop -/

/-- What the loop does to its arrays, beside the actions of the scan. -/
inductive BookEvent where
  /-- A store at an index; the capacity, and the cells there are. -/
  | store (index capacity cells : Nat)
  /-- A call of `get_elf_info`, with the index of its record. -/
  | parse (path : Text) (sourceBase : ULong) (ssectIndex : Nat)
  /-- A test against the record at an index, `ssect_index` records having been
  handed out. -/
  | readRecord (index : Int) (ssectIndex : Nat)
deriving Repr, DecidableEq

abbrev BookScan := Run (Event ⊕ BookEvent) Stop

def liftScan {α : Type} (m : Scan α) : BookScan α := m.mapTrace Sum.inl

def book (e : BookEvent) : BookScan PUnit := Run.emit (.inr e)

/-- The state of the loop with the arrays as they are allocated. -/
structure LoopState where
  buffer : SeenBuffer
  ssect : List SpecialSections
  values : List VmEntry
deriving Repr, DecidableEq

/-- `ssect` is allocated for `vmcnt` records. -/
def LoopState.start (vmcnt : Nat) : LoopState :=
  ⟨.start, List.replicate vmcnt .zero, []⟩

/-- The entries seen and the records handed out. -/
def LoopState.scanState (st : LoopState) : ScanState where
  seen := st.buffer.seen
  ssect := st.ssect.take st.buffer.ssectIndex
  values := st.values

def bookParse (t : Target) (st : LoopState) (kivp : KinfoVmentry) :
    BookScan LoopState :=
  if kivp.kvePath = [] then pure st
  else if st.buffer.seen.any (·.kvePath = kivp.kvePath) then pure st
  else do
    let grown := st.buffer.grow
    book (.store grown.seenIndex grown.seenKivpBufferCapacity
      grown.seenKivp.length)
    let stored := grown.store kivp
    let file ← liftScan (readElf t kivp.kvePath)
    book (.parse kivp.kvePath kivp.kveStart stored.ssectIndex)
    let record ← liftScan (getElfInfo file kivp.kvePath kivp.kveStart)
    pure { st with
      buffer := stored.advance
      ssect := st.ssect.set stored.ssectIndex record }

/-- Both tests read `ssect[ssect_index-1]`. -/
def bookTests (st : LoopState) : BookScan PUnit := do
  book (.readRecord (st.buffer.ssectIndex - 1) st.buffer.ssectIndex)
  book (.readRecord (st.buffer.ssectIndex - 1) st.buffer.ssectIndex)

def bookEntry (t : Target) (comparts : List CompartData) (st : LoopState)
    (entry : KinfoVmentry × Nat) : BookScan LoopState := do
  let st ← bookParse t st entry.1
  bookTests st
  liftScan (scanBlock t entry.2 entry.1 (mmapPath t st.scanState entry.1))
  pure { st with
    values := st.values ++ [blockEntry t comparts st.scanState entry.1] }

/-- The block loop over a map. -/
def bookLoop (t : Target) (comparts : List CompartData)
    (map : List KinfoVmentry) : BookScan LoopState :=
  Run.loop (bookEntry t comparts) (.start map.length) map.zipIdx

/-! ### The buffer holds the entries seen -/

/-- The buffer after one entry of the map. -/
def SeenBuffer.next (b : SeenBuffer) (kivp : KinfoVmentry) : SeenBuffer :=
  if kivp.kvePath = [] then b
  else if b.seen.any (·.kvePath = kivp.kvePath) then b
  else (b.grow.store kivp).advance

/-- The buffer begins with these entries, and the counters are their number. -/
structure SeenBuffer.Holds (b : SeenBuffer) (seen : List KinfoVmentry) :
    Prop where
  cells : b.seenKivp = seen.map some ++
    List.replicate (b.seenKivpBufferCapacity - seen.length) none
  fits : seen.length ≤ b.seenKivpBufferCapacity
  room : 0 < b.seenKivpBufferCapacity
  size : b.seenKivpBufferSize = seen.length
  index : b.seenIndex = seen.length
  records : b.ssectIndex = seen.length

namespace SeenBuffer.Holds

variable {b : SeenBuffer} {seen : List KinfoVmentry}

theorem start : SeenBuffer.start.Holds [] where
  cells := rfl
  fits := Nat.zero_le _
  room := by decide
  size := rfl
  index := rfl
  records := rfl

theorem seen_eq (h : b.Holds seen) : b.seen = seen := by
  rw [SeenBuffer.seen, h.cells, h.index, List.take_append_of_le_length (by simp),
    List.take_of_length_le (by simp), List.filterMap_map]
  exact List.filterMap_some

theorem length_cells (h : b.Holds seen) :
    b.seenKivp.length = b.seenKivpBufferCapacity := by
  have hfits := h.fits
  rw [h.cells, List.length_append, List.length_map, List.length_replicate]
  omega

/-- After growing there is room for one more. -/
theorem grow (h : b.Holds seen) :
    b.grow.Holds seen ∧ seen.length < b.grow.seenKivpBufferCapacity := by
  have hfits := h.fits
  have hroom := h.room
  have hlength := h.length_cells
  by_cases hfull : b.seenKivpBufferSize = b.seenKivpBufferCapacity
  · have hcapacity : b.grow.seenKivpBufferCapacity =
        b.seenKivpBufferCapacity * 2 := by
      rw [SeenBuffer.grow, if_pos hfull]
    have hseen : b.seenKivpBufferCapacity = seen.length := by
      rw [← hfull, h.size]
    constructor
    · rw [SeenBuffer.grow, if_pos hfull]
      refine ⟨?_, ?_, ?_, h.size, h.index, h.records⟩
      · dsimp only
        rw [hlength, h.cells, List.append_assoc, List.replicate_append_replicate]
        congr 2
        omega
      · dsimp only
        omega
      · dsimp only
        omega
    · omega
  · have hsize := h.size
    rw [SeenBuffer.grow, if_neg hfull]
    exact ⟨h, by omega⟩

/-- Storing behind the entries and counting adds the entry. -/
theorem add (h : b.Holds seen) (kivp : KinfoVmentry)
    (hroom : seen.length < b.seenKivpBufferCapacity) :
    (b.store kivp).advance.Holds (seen ++ [kivp]) where
  cells := by
    obtain ⟨k, hk⟩ : ∃ k, b.seenKivpBufferCapacity - seen.length = k + 1 :=
      ⟨b.seenKivpBufferCapacity - seen.length - 1, by omega⟩
    have hrest : b.seenKivpBufferCapacity - (seen.length + 1) = k := by omega
    simp only [SeenBuffer.advance, SeenBuffer.store, h.cells, h.index, hk,
      List.length_append, List.length_singleton, hrest, List.replicate_succ]
    rw [List.set_append_right _ _ (by simp)]
    simp
  fits := by
    rw [List.length_append, List.length_singleton]
    exact hroom
  room := h.room
  size := by simp [SeenBuffer.advance, SeenBuffer.store, h.size]
  index := by simp [SeenBuffer.advance, SeenBuffer.store, h.index]
  records := by simp [SeenBuffer.advance, SeenBuffer.store, h.records]

theorem next (h : b.Holds seen) (kivp : KinfoVmentry) :
    (b.next kivp).Holds (addSeen seen kivp) := by
  rw [SeenBuffer.next, addSeen, h.seen_eq]
  by_cases hpath : kivp.kvePath = []
  · rw [if_pos hpath, if_pos hpath]
    exact h
  · rw [if_neg hpath, if_neg hpath]
    by_cases hseen : seen.any (·.kvePath = kivp.kvePath) = true
    · rw [if_pos hseen, if_pos hseen]
      exact h
    · rw [if_neg hseen, if_neg hseen]
      exact h.grow.1.add kivp h.grow.2

end SeenBuffer.Holds

/-- The buffer after a map. -/
theorem holds_foldl_next (map : List KinfoVmentry) :
    (map.foldl SeenBuffer.next .start).Holds (seenEntries map) := by
  induction map using List.reverseRecOn with
  | nil => exact .start
  | append_singleton map kivp ih =>
      rw [List.foldl_append, seenEntries_concat]
      exact ih.next kivp

/-! ### Refinement -/

/-- The arrays hold what the lists of the scan do, after so many entries of a
map of `vmcnt`. -/
structure LoopState.Represents (vmcnt count : Nat) (low : LoopState)
    (st : ScanState) : Prop where
  buffer : low.buffer.Holds st.seen
  records : low.ssect.take st.seen.length = st.ssect
  allocated : low.ssect.length = vmcnt
  values : low.values = st.values
  length_le : st.seen.length ≤ count

section Refinement

variable {t : Target} {vmcnt count : Nat} {low : LoopState} {st : ScanState}

theorem LoopState.Represents.scanState_eq
    (h : low.Represents vmcnt count st) : low.scanState = st := by
  rw [LoopState.scanState, h.buffer.seen_eq, h.buffer.records, h.records,
    h.values]

theorem LoopState.Represents.later (h : low.Represents vmcnt count st) :
    low.Represents vmcnt (count + 1) st :=
  ⟨h.buffer, h.records, h.allocated, h.values, Nat.le_succ_of_le h.length_le⟩

theorem LoopState.Represents.add (h : low.Represents vmcnt count st)
    (hcount : count < vmcnt) (kivp : KinfoVmentry) (record : SpecialSections) :
    LoopState.Represents vmcnt (count + 1)
      { low with
        buffer := (low.buffer.grow.store kivp).advance
        ssect := low.ssect.set (low.buffer.grow.store kivp).ssectIndex record }
      { st with
        seen := st.seen ++ [kivp]
        ssect := st.ssect ++ [record] } := by
  have hle := h.length_le
  have hlength := h.allocated
  have hindex : (low.buffer.grow.store kivp).ssectIndex = st.seen.length :=
    h.buffer.grow.1.records
  have hroom : st.seen.length < low.ssect.length := by omega
  constructor
  · exact h.buffer.grow.1.add kivp h.buffer.grow.2
  · dsimp only
    rw [hindex, List.length_append, List.length_singleton, List.take_add_one,
      List.take_set_of_le (Nat.le_refl _), h.records,
      List.getElem?_set_self hroom]
    rfl
  · dsimp only
    rw [List.length_set, hlength]
  · exact h.values
  · rw [List.length_append, List.length_singleton]
    omega

theorem liftScan_refines {α : Type} (m : Scan α) :
    Run.Refines Sum.getLeft? Eq (liftScan m) m := by
  have hleft (e : Event) :
      Sum.getLeft? (Sum.inl e : Event ⊕ BookEvent) = some e := rfl
  exact Run.refines_mapTrace hleft m

/-- Parsing with the buffer is parsing with the lists. -/
theorem bookParse_refines (h : low.Represents vmcnt count st)
    (hcount : count < vmcnt) (kivp : KinfoVmentry) :
    Run.Refines Sum.getLeft? (LoopState.Represents vmcnt (count + 1))
      (bookParse t low kivp) (parseFile t st kivp) := by
  rw [bookParse, parseFile, h.buffer.seen_eq]
  by_cases hpath : kivp.kvePath = []
  · rw [if_pos hpath, if_pos hpath]
    exact Run.refines_pure h.later
  · rw [if_neg hpath, if_neg hpath]
    by_cases hseen : st.seen.any (·.kvePath = kivp.kvePath) = true
    · rw [if_pos hseen, if_pos hseen]
      exact Run.refines_pure h.later
    · rw [if_neg hseen, if_neg hseen]
      apply Run.Refines.hidden rfl
      apply (liftScan_refines (readElf t kivp.kvePath)).bind
      rintro file _ rfl
      apply Run.Refines.hidden rfl
      apply (liftScan_refines
        (getElfInfo file kivp.kvePath kivp.kveStart)).bind
      rintro record _ rfl
      exact Run.refines_pure (h.add hcount kivp record)

theorem bookEntry_refines {comparts : List CompartData}
    (h : low.Represents vmcnt count st) (hcount : count < vmcnt)
    (entry : KinfoVmentry × Nat) :
    Run.Refines Sum.getLeft? (LoopState.Represents vmcnt (count + 1))
      (bookEntry t comparts low entry) (scanEntry t comparts st entry) := by
  rw [bookEntry, scanEntry]
  apply (bookParse_refines h hcount entry.1).bind
  intro low₁ st₁ h₁
  rw [bookTests, bind_assoc]
  apply Run.Refines.hidden rfl
  apply Run.Refines.hidden rfl
  rw [h₁.scanState_eq]
  apply (liftScan_refines
    (scanBlock t entry.2 entry.1 (mmapPath t st₁ entry.1))).bind
  rintro _ _ rfl
  apply Run.refines_pure
  exact ⟨h₁.buffer, h₁.records, h₁.allocated, by rw [h₁.values], h₁.length_le⟩

end Refinement

/-- The loop with its arrays and counters does what the loop over lists does,
and ends alike. -/
theorem bookLoop_refines (t : Target) (comparts : List CompartData)
    (map : List KinfoVmentry) :
    Run.Refines Sum.getLeft? (fun low st => low.scanState = st)
      (bookLoop t comparts map)
      (Run.loop (scanEntry t comparts) .start map.zipIdx) := by
  have hloop : Run.Refines Sum.getLeft?
      (LoopState.Represents map.length map.zipIdx.length)
      (Run.loop (bookEntry t comparts) (.start map.length) map.zipIdx)
      (Run.loop (scanEntry t comparts) .start map.zipIdx) := by
    refine Run.Refines.loop (R := fun (done : List (KinfoVmentry × Nat)) =>
      LoopState.Represents map.length done.length) ?_ ?_
    · intro done entry rest low st hsplit h
      have hlength := congrArg List.length hsplit
      rw [List.length_zipIdx, List.length_append, List.length_cons] at hlength
      rw [List.length_append, List.length_singleton]
      exact bookEntry_refines h (by omega) entry
    · exact ⟨.start, rfl, List.length_replicate, rfl, Nat.le_refl 0⟩
  exact hloop.mono fun _ _ h => h.scanState_eq

end Chericat
