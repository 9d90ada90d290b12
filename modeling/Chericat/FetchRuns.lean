import Chericat.FetchInfo

/-!
Sequences of fetches.  A call stays inside of its array and returns what it
selects when the number of rows survives the conversion to `int`.
-/

namespace Chericat

open Numeral

/-! ### Integers through their texts -/

/-- A number as `convert_str_to_int` returns its decimal text. -/
def asInt (i : Int) : CInt := BitVec.ofInt 32 (max longMin (min longMax i))

theorem convertStrToInt_decText {ε : Type} (i : Int) :
    (convertStrToInt (some (decText i)) : Run ε Stop CInt) =
      pure (asInt i) := by
  simp [convertStrToInt, strtol_decText, asInt]

/-- A value of the type `int`. -/
def IsInt (i : Int) : Prop := -2 ^ 31 ≤ i ∧ i < 2 ^ 31

theorem toInt_asInt {i : Int} (h : IsInt i) : (asInt i).toInt = i := by
  obtain ⟨hlow, hhigh⟩ := h
  have hclamp : max longMin (min longMax i) = i := by
    simp only [longMin, longMax]
    omega
  rw [asInt, hclamp, BitVec.toInt_ofInt]
  exact Int.bmod_eq_of_le (by omega) (by omega)

/-- An index that has not reached the sign bit. -/
theorem toInt_ofNat {i : Nat} (h : i < 2 ^ 31) :
    (BitVec.ofNat 32 i).toInt = i := by
  have hnat : (BitVec.ofNat 32 i).toNat = i := by
    rw [BitVec.toNat_ofNat]
    omega
  rw [BitVec.toInt_eq_toNat_of_lt (by omega), hnat]

theorem toNat_of_nonneg {c : CInt} (h : 0 ≤ c.toInt) :
    (c.toNat : Int) = c.toInt := by
  have hlt := c.isLt
  rw [BitVec.toInt_eq_toNat_cond] at h ⊢
  split
  · rfl
  · omega

/-! ### One select -/

section Select

variable {α ρ : Type} {argv : α → Argv} {callback : Argv → Fetch ρ}
  {read : α → ρ}

/-- The writes of a select, from index `0`. -/
def writesOf (count : CInt) (n : Nat) : List Write :=
  (List.range n).map fun i => ⟨(BitVec.ofNat 32 i).toInt, count.toInt⟩

/-- What is stored in the array, as far as it reaches. -/
def storedCells (count : CInt) (captured : List ρ) : List (Option ρ) :=
  captured.map some ++ List.replicate (count.toNat - captured.length) none

theorem storedCells_set {count : CInt} {captured : List ρ}
    (h : captured.length < count.toNat) (r : ρ) :
    (storedCells count captured).set captured.length (some r) =
      storedCells count (captured ++ [r]) := by
  have hspare : count.toNat - captured.length =
      count.toNat - (captured ++ [r]).length + 1 := by
    rw [List.length_append, List.length_singleton]
    omega
  have hlength : (captured.map some).length = captured.length :=
    List.length_map _
  rw [storedCells, hspare, List.replicate_succ, List.set_append_right _ _
    hlength.le, hlength, Nat.sub_self, List.set_cons_zero, storedCells,
    List.map_append, List.append_assoc]
  rfl

theorem storeRow_eq {a : α} (hread : callback (argv a) = pure (read a))
    (count : CInt) (s : Filling ρ) :
    storeRow count callback s (argv a) =
      ⟨[⟨s.index.toInt, count.toInt⟩],
        .ok ⟨s.index + 1, s.cells.set s.index.toNat (some (read a))⟩⟩ := by
  rw [storeRow, hread]
  rfl

/-- All rows are stored, at consecutive indexes. -/
theorem loop_storeRow (count : CInt) {rows : List α}
    (hread : ∀ a ∈ rows, callback (argv a) = pure (read a)) :
    ∃ cells, Run.loop (storeRow count callback)
        ⟨0, List.replicate count.toNat none⟩ (rows.map argv) =
        ⟨writesOf count rows.length, .ok ⟨BitVec.ofNat 32 rows.length, cells⟩⟩ ∧
      (rows.length ≤ count.toNat → cells = storedCells count (rows.map read)) := by
  induction rows using List.reverseRecOn with
  | nil => exact ⟨_, rfl, fun _ => by simp [storedCells]⟩
  | append_singleton rows a ih =>
      obtain ⟨cells, hloop, hcells⟩ := ih fun b hb =>
        hread b (List.mem_append.mpr (Or.inl hb))
      have hlast := storeRow_eq (hread a (by simp)) count
        ⟨BitVec.ofNat 32 rows.length, cells⟩
      refine ⟨cells.set (BitVec.ofNat 32 rows.length).toNat (some (read a)),
        ?_, ?_⟩
      · have hnext : BitVec.ofNat 32 rows.length + 1 =
            BitVec.ofNat 32 (rows.length + 1) := by
          rw [BitVec.ofNat_add]
          rfl
        rw [List.map_append, List.map_singleton, Run.loop_append, hloop,
          Run.mk_ok_bind, Run.loop_cons, hlast, Run.mk_ok_bind, Run.loop_nil,
          List.length_append, List.length_singleton, ← hnext, writesOf,
          writesOf, List.range_succ, List.map_append]
        simp
      · intro hlength
        rw [List.length_append, List.length_singleton] at hlength
        have hindex : (BitVec.ofNat 32 rows.length).toNat = rows.length := by
          have hcount := count.isLt
          rw [BitVec.toNat_ofNat]
          omega
        have hfits : (rows.map read).length < count.toNat := by
          rw [List.length_map]
          omega
        have hset := storedCells_set hfits (read a)
        rw [List.length_map] at hset
        rw [hcells (by omega), hindex, hset, List.map_append,
          List.map_singleton]

/-- All of them are inside of the array when there are as many rows as elements
at most. -/
theorem writesOf_inBounds_iff {count : CInt} (hcount : 0 ≤ count.toInt)
    (n : Nat) :
    (∀ w ∈ writesOf count n, w.InBounds) ↔ (n : Int) ≤ count.toInt := by
  have hlt : count.toInt < 2 ^ 31 := BitVec.toInt_lt
  simp only [writesOf, List.forall_mem_map, List.mem_range, Write.InBounds]
  constructor
  · intro h
    by_contra hn
    obtain ⟨m, hm⟩ := Int.eq_ofNat_of_zero_le hcount
    have hwrite := (h m (by omega)).2
    rw [toInt_ofNat (by omega)] at hwrite
    omega
  · intro hn i hi
    rw [toInt_ofNat (by omega)]
    omega

/-! ### One call -/

/-- A count read back negative is more than `calloc` can give. -/
theorem callocCells_eq {count : CInt} (h : 0 ≤ count.toInt) :
    (callocCells count : Fetch (List (Option ρ))) =
      pure (List.replicate count.toNat none) := by
  rw [callocCells, if_neg (by omega)]

/-- What a call returns for the rows its query selects. -/
structure Returns (s : Snapshot) (rows : List ρ) (r : Fetched ρ) : Prop where
  rows : s.fails = none → r.ret = rows.length ∧ r.array = rows.map some
  failed : s.fails ≠ none → r.ret = -1

/-- The rows of a select that succeeds can be counted in an `int`; those
delivered before a failure stay below what the conversion makes of the
count. -/
def RowsFit (n : Nat) (fails : Option Nat) : Prop :=
  match fails with
  | none => n < 2 ^ 31
  | some k => 0 ≤ (asInt n).toInt ∧ (min k n : Nat) ≤ (asInt n).toInt

theorem rowsFit_of_lt {n : Nat} (h : n < 2 ^ 31) (fails : Option Nat) :
    RowsFit n fails := by
  rcases fails with - | k
  · exact h
  · rw [RowsFit, toInt_asInt ⟨by omega, by omega⟩]
    omega

theorem delivered_map (s : Snapshot) (rows : List α) :
    s.delivered (rows.map argv) = (s.delivered rows).map argv := by
  rw [Snapshot.delivered, Snapshot.delivered]
  split
  · rfl
  · exact List.map_take.symm

theorem delivered_subset (s : Snapshot) (rows : List α) :
    s.delivered rows ⊆ rows := by
  rw [Snapshot.delivered]
  split
  · exact List.Subset.refl _
  · exact List.take_subset _ _

theorem getInfo_stops {s : Snapshot} {tb : Table} {rows : List Argv}
    (hcount : (asInt rows.length).toInt < 0) (index : CInt) :
    ∀ r, (getInfo s tb rows callback index).outcome ≠ .ok r := by
  intro r h
  rw [getInfo] at h
  obtain ⟨_, _, h⟩ := Run.bind_eq_ok h
  obtain ⟨count, hread, h⟩ := Run.bind_eq_ok h
  obtain ⟨_, hcells, _⟩ := Run.bind_eq_ok h
  rw [infoCount] at hread
  obtain ⟨_, _, hread⟩ := Run.bind_eq_ok hread
  rw [convertStrToInt_decText] at hread
  cases hread
  rw [callocCells, if_pos hcount] at hcells
  cases hcells

/-- A call whose count is not negative returns; its writes and its array. -/
theorem getInfo_eq {s : Snapshot} {tb : Table} (htable : s.present tb = true)
    {rows : List α} (hread : ∀ a ∈ rows, callback (argv a) = pure (read a))
    (hcount : 0 ≤ (asInt rows.length).toInt) :
    ∃ cells, getInfo s tb (rows.map argv) callback 0 =
        ⟨writesOf (asInt rows.length) (s.delivered rows).length,
          .ok (⟨if s.fails.isNone then (asInt rows.length).toInt else -1,
            cells⟩, 0)⟩ ∧
      ((s.delivered rows).length ≤ (asInt rows.length).toNat →
        cells = storedCells (asInt rows.length)
          ((s.delivered rows).map read)) := by
  obtain ⟨cells, hloop, hcells⟩ := loop_storeRow (asInt rows.length)
    fun a ha => hread a (delivered_subset s rows ha)
  refine ⟨cells, ?_, hcells⟩
  have hassert : assertDbTableExists s tb = pure ⟨⟩ := by
    rw [assertDbTableExists, if_pos htable]
  rw [getInfo, infoCount, hassert, pure_bind, pure_bind, List.length_map,
    convertStrToInt_decText, pure_bind, callocCells_eq hcount, pure_bind,
    delivered_map, hloop, Run.mk_ok_bind]
  simp

/-- A call from index `0` stays inside of its array and returns what its query
selects if and only if the rows fit. -/
theorem getInfo_exact_iff {s : Snapshot} {tb : Table}
    (htable : s.present tb = true) {rows : List α}
    (hread : ∀ a ∈ rows, callback (argv a) = pure (read a)) :
    (∃ r, (getInfo s tb (rows.map argv) callback 0).outcome = .ok (r, 0) ∧
        Returns s (rows.map read) r ∧
        ∀ w ∈ (getInfo s tb (rows.map argv) callback 0).trace, w.InBounds) ↔
      RowsFit rows.length s.fails := by
  rcases Int.lt_or_le (asInt rows.length).toInt 0 with hneg | hcount
  · have hstops := @getInfo_stops ρ callback s tb (rows.map argv)
      (by rwa [List.length_map]) 0
    refine iff_of_false (fun ⟨r, hr, _⟩ => hstops _ hr) fun hfits => ?_
    rcases hfails : s.fails with - | k
    · rw [hfails, RowsFit] at hfits
      rw [toInt_asInt ⟨by omega, by omega⟩] at hneg
      omega
    · rw [hfails, RowsFit] at hfits
      omega
  · obtain ⟨cells, hcall, hcells⟩ := getInfo_eq htable hread hcount
    have hmax : (asInt rows.length).toInt < 2 ^ 31 := BitVec.toInt_lt
    rw [hcall]
    simp only [Except.ok.injEq, Prod.mk.injEq, and_true, exists_eq_left',
      writesOf_inBounds_iff hcount]
    rcases hfails : s.fails with - | k
    · have hall : s.delivered rows = rows := by
        rw [Snapshot.delivered, hfails]
      rw [hall] at hcells ⊢
      rw [RowsFit]
      constructor
      · rintro ⟨_, hle⟩
        omega
      · intro hlt
        have hsame := toInt_asInt (i := rows.length) ⟨by omega, by omega⟩
        have hnat := toNat_of_nonneg hcount
        have hfull : cells = (rows.map read).map some := by
          have hspare : (asInt rows.length).toNat - rows.length = 0 := by omega
          rw [hcells (by omega), storedCells, List.length_map, hspare,
            List.replicate_zero, List.append_nil]
        refine ⟨⟨fun _ => ⟨?_, hfull⟩, fun h => absurd hfails h⟩, hsame.ge⟩
        rw [List.length_map]
        exact hsame
    · have hlength : (s.delivered rows).length = min k rows.length := by
        rw [Snapshot.delivered, hfails, List.length_take]
      rw [RowsFit, hlength]
      constructor
      · rintro ⟨_, hle⟩
        exact ⟨hcount, hle⟩
      · rintro ⟨_, hle⟩
        refine ⟨⟨fun h => ?_, fun _ => rfl⟩, hle⟩
        rw [hfails] at h
        cases h

end Select

/-! ### The rows of the four tables -/

/-- The integer columns of the database are of the type `int`. -/
structure HoldsInts (db : Db) : Prop where
  vm : ∀ v ∈ db.vm, IsInt v.compartId ∧ IsInt v.kveProtection ∧
    IsInt v.mmapFlags ∧ IsInt v.vnodeType
  comparts : ∀ r ∈ db.comparts.rows, IsInt r.compartId ∧
    (∀ i, r.isDefault = some i → IsInt i) ∧ ∀ i, r.parentId = some i → IsInt i

/-- The row in a `comp_info`: a `NULL` integer reads as `0`. -/
def CompInfo.fetched (r : CompInfo) : CompInfo :=
  { r with
    isDefault := some (r.isDefault.getD 0)
    parentId := some (r.parentId.getD 0) }

theorem vmInfoQueryCallback_argv {db : Db} (h : HoldsInts db) :
    ∀ v ∈ db.vm, vmInfoQueryCallback v.argv = pure v := by
  intro v hv
  obtain ⟨hid, hprot, hflags, htype⟩ := h.vm v hv
  simp only [VmInfo.argv, vmInfoQueryCallback, strdup, convertStrToInt_decText,
    pure_bind, toInt_asInt hid, toInt_asInt hprot, toInt_asInt hflags,
    toInt_asInt htype]

theorem capInfoQueryCallback_argv (c : CapInfo) :
    capInfoQueryCallback c.argv = pure c := by
  simp only [CapInfo.argv, capInfoQueryCallback, strdup, pure_bind]

theorem symInfoQueryCallback_argv (s : SymInfo) :
    symInfoQueryCallback s.argv = pure s := by
  simp only [SymInfo.argv, symInfoQueryCallback, strdup, pure_bind]

theorem convertStrToInt_column {i : Option Int}
    (h : ∀ n, i = some n → IsInt n) :
    ∃ c : CInt, (convertStrToInt (i.map decText) : Fetch CInt) = pure c ∧
      c.toInt = i.getD 0 := by
  rcases i with - | n
  · exact ⟨0, rfl, rfl⟩
  · exact ⟨asInt n, convertStrToInt_decText n, toInt_asInt (h n rfl)⟩

theorem compInfoQueryCallback_argv {db : Db} (h : HoldsInts db) :
    ∀ r ∈ db.comparts.rows, compInfoQueryCallback r.argv = pure r.fetched := by
  intro r hr
  obtain ⟨hid, hdefault, hparent⟩ := h.comparts r hr
  obtain ⟨d, hd, hdint⟩ := convertStrToInt_column hdefault
  obtain ⟨p, hp, hpint⟩ := convertStrToInt_column hparent
  simp only [CompInfo.argv, compInfoQueryCallback, convertStrToInt_decText, hd,
    hp, pure_bind, toInt_asInt hid, hdint, hpint, CompInfo.fetched]

/-! ### Runs of calls -/

variable (selects : Text → CapInfo → Bool)

/-- The number of rows the query of a call selects. -/
def FetchCall.selected (db : Db) : FetchCall → Nat
  | .allVm => db.vm.length
  | .allCap => db.capInfo.length
  | .capForLib lib => (db.capInfo.filter (selects lib)).length
  | .allSym => db.elfSym.length
  | .allComp => db.comparts.rows.length

/-- The call has returned what it selects, or `-1` when its select failed. -/
def ReturnsSelected (call : FetchCall × Snapshot) (r : FetchResult) : Prop :=
  match call.1, r with
  | .allVm, .vm r => Returns call.2 call.2.db.vm r
  | .allCap, .cap r => Returns call.2 call.2.db.capInfo r
  | .capForLib lib, .cap r =>
      Returns call.2 (call.2.db.capInfo.filter (selects lib)) r
  | .allSym, .sym r => Returns call.2 call.2.db.elfSym r
  | .allComp, .comp r =>
      Returns call.2 (call.2.db.comparts.rows.map CompInfo.fetched) r
  | _, _ => False

/-- The tables are there, and their integers are of the type `int`. -/
structure Snapshot.Ok (s : Snapshot) : Prop where
  present : ∀ tb, s.present tb = true
  ints : HoldsInts s.db

/-- The call returns what it should, stores in bounds and leaves the indexes
`0`. -/
def StepExact (st : FetchState) (call : FetchCall × Snapshot) : Prop :=
  ∃ r, (fetchStep selects st call).outcome =
      .ok ⟨.zero, st.results ++ [r]⟩ ∧ ReturnsSelected selects call r ∧
    ∀ w ∈ (fetchStep selects st call).trace, w.InBounds

section Step

variable {α ρ : Type} {argv : α → Argv} {callback : Argv → Fetch ρ}
  {read : α → ρ} {selects : Text → CapInfo → Bool}

/-- The step of a call that fetches `rows` from its table. -/
theorem stepExact_iff_rowsFit (wrap : Fetched ρ → FetchResult)
    (setIndex : CInt → Indexes) (hindex : ∀ i, setIndex i = .zero ↔ i = 0)
    {results : List FetchResult} {call : FetchCall × Snapshot} {tb : Table}
    {rows : List α}
    (hstep : fetchStep selects ⟨.zero, results⟩ call =
      getInfo call.2 tb (rows.map argv) callback 0 >>= fun r =>
        pure ⟨setIndex r.2, results ++ [wrap r.1]⟩)
    (hreturns : ∀ r, ReturnsSelected selects call (wrap r) ↔
      Returns call.2 (rows.map read) r)
    (htable : call.2.present tb = true)
    (hread : ∀ a ∈ rows, callback (argv a) = pure (read a)) :
    StepExact selects ⟨.zero, results⟩ call ↔
      RowsFit rows.length call.2.fails := by
  rw [← getInfo_exact_iff htable hread, StepExact, hstep]
  constructor
  · rintro ⟨_, hok, hr, hwrites⟩
    obtain ⟨⟨r, i⟩, hcall, hok⟩ := Run.bind_eq_ok hok
    simp only [Run.outcome_pure, Except.ok.injEq, FetchState.mk.injEq,
      List.append_cancel_left_eq, List.cons.injEq, and_true] at hok
    obtain ⟨hzero, rfl⟩ := hok
    cases (hindex i).1 hzero
    refine ⟨r, hcall, (hreturns r).1 hr, ?_⟩
    rwa [Run.trace_bind_ok hcall, Run.trace_pure, List.append_nil] at hwrites
  · rintro ⟨r, hcall, hr, hwrites⟩
    refine ⟨wrap r, ?_, (hreturns r).2 hr, ?_⟩
    · rw [Run.outcome_bind_ok hcall, (hindex 0).2 rfl]
      rfl
    · rwa [Run.trace_bind_ok hcall, Run.trace_pure, List.append_nil]

end Step

theorem returns_id {ρ : Type} {s : Snapshot} {rows : List ρ} (r : Fetched ρ) :
    Returns s rows r ↔ Returns s (rows.map fun a => a) r := by
  rw [List.map_id'']
  exact fun _ => rfl

/-- One call with all indexes `0`. -/
theorem stepExact_iff {st : FetchState} (hst : st.indexes = .zero)
    {call : FetchCall × Snapshot} (hok : call.2.Ok) :
    StepExact selects st call ↔
      RowsFit (call.1.selected selects call.2.db) call.2.fails := by
  obtain ⟨indexes, results⟩ := st
  obtain rfl : indexes = .zero := hst
  obtain ⟨call, s⟩ := call
  rcases call with - | - | lib | - | -
  · exact stepExact_iff_rowsFit .vm (fun i => { Indexes.zero with vm := i })
      (fun i => by simp [Indexes.zero]) rfl returns_id (hok.present .vm)
      (vmInfoQueryCallback_argv hok.ints)
  · exact stepExact_iff_rowsFit .cap (fun i => { Indexes.zero with cap := i })
      (fun i => by simp [Indexes.zero]) rfl returns_id (hok.present .capInfo)
      fun c _ => capInfoQueryCallback_argv c
  · exact stepExact_iff_rowsFit .cap (fun i => { Indexes.zero with cap := i })
      (fun i => by simp [Indexes.zero]) rfl returns_id (hok.present .capInfo)
      fun c _ => capInfoQueryCallback_argv c
  · exact stepExact_iff_rowsFit .sym (fun i => { Indexes.zero with sym := i })
      (fun i => by simp [Indexes.zero]) rfl returns_id (hok.present .elfSym)
      fun s _ => symInfoQueryCallback_argv s
  · exact stepExact_iff_rowsFit .comp (fun i => { Indexes.zero with comp := i })
      (fun i => by simp [Indexes.zero]) rfl (fun r => Iff.rfl)
      (hok.present .comparts) (compInfoQueryCallback_argv hok.ints)

/-! ### All calls of a run -/

/-- Every call of the sequence is exact, from the state the calls before it
have left. -/
structure RunExact (calls : List (FetchCall × Snapshot)) : Prop where
  returns : ∀ done, done <+: calls → ∃ results,
    (Run.loop (fetchStep selects) .start done).outcome =
        .ok ⟨.zero, results⟩ ∧
      List.Forall₂ (ReturnsSelected selects) done results
  writes : ∀ w ∈ (Run.loop (fetchStep selects) .start calls).trace, w.InBounds

variable {selects} in
theorem fetchStep_results {st st' : FetchState} {call : FetchCall × Snapshot}
    (h : (fetchStep selects st call).outcome = .ok st') :
    ∃ r, st'.results = st.results ++ [r] := by
  rw [fetchStep] at h
  split at h <;>
    obtain ⟨r, _, h⟩ := Run.bind_eq_ok h <;>
    cases h <;>
    exact ⟨_, rfl⟩

/-- Behind an exact run, the run with one more call is exact when this call
is. -/
theorem runExact_concat {calls : List (FetchCall × Snapshot)}
    {call : FetchCall × Snapshot} {results : List FetchResult}
    (hloop : (Run.loop (fetchStep selects) .start calls).outcome =
      .ok ⟨.zero, results⟩) (hrun : RunExact selects calls) :
    RunExact selects (calls ++ [call]) ↔
      StepExact selects ⟨.zero, results⟩ call := by
  obtain ⟨results', hloop', hall⟩ := hrun.returns calls (List.prefix_refl _)
  cases hloop.symm.trans hloop'
  have houtcome : (Run.loop (fetchStep selects) .start
      (calls ++ [call])).outcome =
        (fetchStep selects ⟨.zero, results⟩ call).outcome := by
    rw [Run.loop_append, Run.outcome_bind_ok hloop, Run.loop_cons]
    exact congrArg Run.outcome (bind_pure _)
  have htrace : (Run.loop (fetchStep selects) .start
      (calls ++ [call])).trace =
        (Run.loop (fetchStep selects) .start calls).trace ++
          (fetchStep selects ⟨.zero, results⟩ call).trace := by
    rw [Run.loop_append, Run.trace_bind_ok hloop, Run.loop_cons]
    exact congrArg (_ ++ Run.trace ·) (bind_pure _)
  constructor
  · rintro ⟨hreturns, hwrites⟩
    obtain ⟨results', hok, hall'⟩ := hreturns _ (List.prefix_refl _)
    rw [houtcome] at hok
    obtain ⟨r, rfl⟩ := fetchStep_results hok
    rw [← List.forall₂_reverse_iff, List.reverse_append,
      List.reverse_append] at hall'
    rw [htrace, List.forall_mem_append] at hwrites
    rcases hall' with - | ⟨hlast, -⟩
    exact ⟨r, hok, hlast, hwrites.2⟩
  · rintro ⟨r, hok, hr, hwrites⟩
    constructor
    · intro done hdone
      rcases List.prefix_concat_iff.mp hdone with rfl | hdone
      · exact ⟨_, houtcome.trans hok, List.rel_append hall (.cons hr .nil)⟩
      · exact hrun.returns done hdone
    · rw [htrace, List.forall_mem_append]
      exact ⟨hrun.writes, hwrites⟩

theorem RunExact.of_concat {calls : List (FetchCall × Snapshot)}
    {call : FetchCall × Snapshot} (h : RunExact selects (calls ++ [call])) :
    RunExact selects calls := by
  obtain ⟨results, hloop, _⟩ := h.returns calls (List.prefix_append _ _)
  refine ⟨fun done hdone => h.returns done (hdone.trans (List.prefix_append _ _)),
    fun w hw => h.writes w ?_⟩
  rw [Run.loop_append, Run.trace_bind_ok hloop]
  exact List.mem_append.mpr (Or.inl hw)

/-- A sequence of fetches, each meeting its own state of the tables, is exact
if and only if the rows of every one of them fit. -/
theorem runExact_iff {calls : List (FetchCall × Snapshot)}
    (hok : ∀ call ∈ calls, call.2.Ok) :
    RunExact selects calls ↔ ∀ call ∈ calls,
      RowsFit (call.1.selected selects call.2.db) call.2.fails := by
  induction calls using List.reverseRecOn with
  | nil =>
      refine iff_of_true ⟨?_, nofun⟩ nofun
      rintro done hdone
      rw [List.prefix_nil] at hdone
      subst hdone
      exact ⟨[], rfl, .nil⟩
  | append_singleton calls call ih =>
      have hcalls := ih fun c hc => hok c (List.mem_append.mpr (Or.inl hc))
      have hcall := hok call (by simp)
      rw [List.forall_mem_append, ← hcalls, List.forall_mem_singleton]
      constructor
      · intro h
        have hrun := h.of_concat
        obtain ⟨results, hloop, _⟩ := hrun.returns calls (List.prefix_refl _)
        refine ⟨hrun, ?_⟩
        exact (stepExact_iff selects rfl hcall).1
          ((runExact_concat selects hloop hrun).1 h)
      · rintro ⟨hrun, hfits⟩
        obtain ⟨results, hloop, _⟩ := hrun.returns calls (List.prefix_refl _)
        exact (runExact_concat selects hloop hrun).2
          ((stepExact_iff selects rfl hcall).2 hfits)

/-! ### Many rows -/

/-- A database with `n` capabilities and nothing else. -/
def manyCaps (n : Nat) (fails : Option Nat) : Snapshot where
  present _ := true
  db := { Db.empty with capInfo := List.replicate n ⟨[], [], [], [], [], []⟩ }
  fails := fails

theorem manyCaps_ok (n : Nat) (fails : Option Nat) :
    (manyCaps n fails).Ok := by
  refine ⟨fun _ => rfl, ⟨?_, ?_⟩⟩
  · apply List.forall_mem_nil
  · apply List.forall_mem_nil

/-- The count of `2 ^ 32` rows is read as `0`, and every row is stored outside
of the array. -/
theorem caps_stored_outside :
    ¬ RunExact (fun _ _ => true) [(.allCap, manyCaps (2 ^ 32) none)] := by
  intro h
  have hstart : RunExact (fun _ _ => true) [] := @RunExact.of_concat _ [] _ h
  have hstep := (runExact_concat (fun _ _ => true) rfl hstart).1 h
  rw [stepExact_iff _ rfl (manyCaps_ok _ _)] at hstep
  have hlength : (manyCaps (2 ^ 32) none).db.capInfo.length = 2 ^ 32 :=
    List.length_replicate
  have hfits : (manyCaps (2 ^ 32) none).db.capInfo.length < 2 ^ 31 := hstep
  omega

/-- A fetch, one that fails after two of three rows, and another one of the same
table. -/
theorem fetch_after_failure :
    RunExact (fun _ _ => true)
      [(.allCap, manyCaps 3 none), (.capForLib [], manyCaps 3 (some 2)),
        (.allCap, manyCaps 3 none)] := by
  rw [runExact_iff]
  · simp only [List.forall_mem_cons, FetchCall.selected]
    exact ⟨rowsFit_of_lt (by decide) _, rowsFit_of_lt (by decide) _,
      rowsFit_of_lt (by decide) _, nofun⟩
  · simp only [List.forall_mem_cons]
    exact ⟨manyCaps_ok _ _, manyCaps_ok _ _, manyCaps_ok _ _, nofun⟩

end Chericat
