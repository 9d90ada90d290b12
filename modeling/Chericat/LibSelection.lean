import Chericat.FetchRuns
import Chericat.LikeLiteral
import Chericat.SqlText

/-!
The capabilities selected for a library name.  The name goes unescaped into a
`LIKE` pattern between double quotes, where the stored paths that have the name
as a part are not the only ones that match.
-/

namespace Chericat

open Numeral SqlLike SqlText

section Query

variable (other : Text → Option (CapInfo → Bool)) (unset : Option Text)

/-- The condition of both queries, `cap_loc_path LIKE "%name%";`, from its
pattern on.  A quote of the name can end the pattern early: `other` is what
SQLite makes of the rest then, where `none` is an error. -/
def libSelects (lib : Text) : Option (CapInfo → Bool) :=
  match takeQuoted (within lib ++ ['"', ';']) with
  | some (pattern, [';']) => some fun c => like pattern c.capLocPath
  | _ => other lib

/-- `cap_info_for_lib_count`.  A query that fails leaves `count` as it was
declared, `unset`. -/
def capInfoForLibCount (s : Snapshot) (lib : Text) : Fetch CInt :=
  match libSelects other lib with
  | some selects => infoCount s .capInfo (s.db.capInfo.filter selects).length
  | none => do
      assertDbTableExists s .capInfo
      convertStrToInt unset

/-- `get_cap_info_for_lib`, with the query it builds. -/
def fetchCapInfoForLib (s : Snapshot) (index : CInt) (lib : Text) :
    Fetch (Fetched CapInfo × CInt) :=
  match libSelects other lib with
  | some selects => getCapInfoForLib (fun _ => selects) s index lib
  | none => do
      assertDbTableExists s .capInfo
      let count ← capInfoForLibCount other unset s lib
      let cells ← callocCells count
      pure (⟨-1, cells⟩, 0)

/-- The pattern ends where it is meant to. -/
theorem takeQuoted_within {lib : Text} (h : QuoteFree lib) :
    takeQuoted (within lib ++ ['"', ';']) = some (within lib, [';']) := by
  have hfree : QuoteFree (within lib) := by
    intro hmem
    simp only [within, List.mem_cons, List.mem_append, List.not_mem_nil,
      or_false] at hmem
    rcases hmem with hquote | hquote | hquote
    · cases hquote
    · exact h hquote
    · cases hquote
  exact takeQuoted_of_quoteFree hfree (endsQuoted_cons [] (by decide))

theorem libSelects_of_quoteFree {lib : Text} (h : QuoteFree lib) :
    libSelects other lib = some fun c => like (within lib) c.capLocPath := by
  rw [libSelects, takeQuoted_within h]
  rfl

/-! ### What the name says -/

/-- The rows whose path has the name as a part. -/
def containing (lib : Text) (rows : List CapInfo) : List CapInfo :=
  rows.filter fun c => lib <:+: c.capLocPath

/-- All tables there, and no select that fails half-way. -/
def intact (db : Db) : Snapshot := ⟨fun _ => true, db, none⟩

theorem capInfo_present (db : Db) : (intact db).present .capInfo = true := rfl

/-- The rows with the name in their path are counted and fetched. -/
structure SelectsContaining (db : Db) (lib : Text) : Prop where
  counts : ∃ c, (capInfoForLibCount other unset (intact db) lib).outcome =
      .ok c ∧ c.toInt = (containing lib db.capInfo).length
  fetches : ∃ r, (fetchCapInfoForLib other unset (intact db) 0 lib).outcome =
      .ok (r, 0) ∧ Returns (intact db) (containing lib db.capInfo) r ∧
    ∀ w ∈ (fetchCapInfoForLib other unset (intact db) 0 lib).trace, w.InBounds

/-- The condition decides every stored path as the name does, and its rows can
be counted in an `int`. -/
structure LibReadable (db : Db) (lib : Text) : Prop where
  agrees : ∃ selects, libSelects other lib = some selects ∧
    ∀ c ∈ db.capInfo, selects c = true ↔ lib <:+: c.capLocPath
  counted : (containing lib db.capInfo).length < 2 ^ 31

theorem filter_eq_containing_iff {lib : Text} {rows : List CapInfo}
    {selects : CapInfo → Bool} :
    rows.filter selects = containing lib rows ↔
      ∀ c ∈ rows, selects c = true ↔ lib <:+: c.capLocPath := by
  constructor
  · intro h c hc
    have hmem : c ∈ rows.filter selects ↔ c ∈ containing lib rows := by rw [h]
    simpa [containing, hc] using hmem
  · intro h
    apply List.filter_congr
    intro c hc
    rw [Bool.eq_iff_iff, h c hc, decide_eq_true_iff]

end Query

/-! ### Both functions -/

section Selection

variable {other : Text → Option (CapInfo → Bool)} {unset : Option Text}
  {db : Db} {lib : Text}

/-- An array of rows only is the rows stored in it. -/
theorem eq_of_storedCells {count : CInt} {captured rows : List CapInfo}
    (h : storedCells count captured = rows.map some) : captured = rows := by
  have hspare : count.toNat - captured.length = 0 := by
    by_contra hpos
    have hnone : none ∈ rows.map some := by
      rw [← h, storedCells]
      exact List.mem_append_right _ (List.mem_replicate.2 ⟨hpos, rfl⟩)
    obtain ⟨r, -, hr⟩ := List.mem_map.1 hnone
    cases hr
  rw [storedCells, hspare, List.replicate_zero, List.append_nil] at h
  exact List.map_injective_iff.2 (Option.some_injective _) h

/-- A fetch that stays in its array and hands out `rows` has selected them. -/
theorem filter_eq_of_returns {selects : CapInfo → Bool} {rows : List CapInfo}
    {r : Fetched CapInfo}
    (hok : (getCapInfoForLib (fun _ => selects) (intact db) 0 lib).outcome =
      .ok (r, 0)) (hr : Returns (intact db) rows r)
    (hwrites : ∀ w ∈ (getCapInfoForLib (fun _ => selects) (intact db) 0
      lib).trace, w.InBounds) :
    db.capInfo.filter selects = rows := by
  have hcount : 0 ≤ (asInt (db.capInfo.filter selects).length).toInt := by
    by_contra hneg
    exact getInfo_stops (by rw [List.length_map]; exact not_le.1 hneg) 0 _ hok
  obtain ⟨cells, hcall, hcells⟩ := getInfo_eq (capInfo_present db)
    (fun c _ => capInfoQueryCallback_argv c) hcount
  have hfetch : getCapInfoForLib (fun _ => selects) (intact db) 0 lib = _ := hcall
  rw [hfetch] at hok hwrites
  cases hok
  have hfits := (writesOf_inBounds_iff hcount _).1 hwrites
  have hnat := toNat_of_nonneg hcount
  have harray : cells = rows.map some := (hr.rows rfl).2
  rw [hcells (by omega), List.map_id''] at harray
  · exact eq_of_storedCells harray
  · exact fun _ => rfl

theorem selectsContaining_of_readable (h : LibReadable other db lib) :
    SelectsContaining other unset db lib := by
  obtain ⟨⟨selects, hselects, hagrees⟩, hcounted⟩ := h
  have hrows := filter_eq_containing_iff.2 hagrees
  constructor
  · have hcount : capInfoForLibCount other unset (intact db) lib =
        pure (asInt (containing lib db.capInfo).length) := by
      simp only [capInfoForLibCount, hselects, infoCount, intact, hrows,
        assertDbTableExists, if_true, pure_bind, convertStrToInt_decText]
    rw [hcount]
    exact ⟨_, rfl, toInt_asInt ⟨by omega, by omega⟩⟩
  · have hfetch : fetchCapInfoForLib other unset (intact db) 0 lib =
        getInfo (intact db) .capInfo
          ((containing lib db.capInfo).map CapInfo.argv)
          capInfoQueryCallback 0 := by
      simp only [fetchCapInfoForLib, hselects, getCapInfoForLib, intact, hrows]
    have hexact := (getInfo_exact_iff (capInfo_present db)
      fun c _ => capInfoQueryCallback_argv c).2 hcounted
    rw [hfetch]
    simpa only [← returns_id] using hexact

theorem readable_of_selectsContaining
    (h : SelectsContaining other unset db lib) : LibReadable other db lib := by
  obtain ⟨-, r, hok, hr, hwrites⟩ := h
  rw [fetchCapInfoForLib] at hok hwrites
  rcases hselects : libSelects other lib with - | selects
  · -- the query fails, and `-1` is returned
    rw [hselects] at hok
    obtain ⟨_, _, hok⟩ := Run.bind_eq_ok hok
    obtain ⟨_, _, hok⟩ := Run.bind_eq_ok hok
    obtain ⟨_, _, hok⟩ := Run.bind_eq_ok hok
    cases hok
    have hret : (-1 : Int) = (containing lib db.capInfo).length :=
      (hr.rows rfl).1
    omega
  · rw [hselects] at hok hwrites
    have hrows := filter_eq_of_returns hok hr hwrites
    refine ⟨⟨selects, hselects, filter_eq_containing_iff.1 hrows⟩, ?_⟩
    rw [← hrows] at hr ⊢
    exact (getInfo_exact_iff (capInfo_present db)
      fun c _ => capInfoQueryCallback_argv c).1
        ⟨r, hok, (returns_id r).1 hr, hwrites⟩

theorem selectsContaining_iff_readable :
    SelectsContaining other unset db lib ↔ LibReadable other db lib :=
  ⟨readable_of_selectsContaining, selectsContaining_of_readable⟩

/-- Without a quote, the pattern selects what the name says unless a stored path
matches it without having the name in it. -/
theorem libReadable_iff_of_quoteFree (hlib : QuoteFree lib) :
    LibReadable other db lib ↔
      (∀ c ∈ db.capInfo, like (within lib) c.capLocPath = true →
        lib <:+: c.capLocPath) ∧
      (containing lib db.capInfo).length < 2 ^ 31 := by
  have hselects := libSelects_of_quoteFree other hlib
  constructor
  · rintro ⟨⟨selects, h, hagrees⟩, hcounted⟩
    cases hselects.symm.trans h
    exact ⟨fun c hc => (hagrees c hc).1, hcounted⟩
  · rintro ⟨hstray, hcounted⟩
    exact ⟨⟨_, hselects, fun c hc =>
      ⟨hstray c hc, like_within_of_infix⟩⟩, hcounted⟩

/-- A table with one capability, at a path of the file system. -/
def capAt (path : Text) : Db :=
  { Db.empty with capInfo := [⟨[], path, [], [], [], []⟩] }

/-- Without a quote, the name selects what it says in every table that can be
counted if and only if all its characters are literal. -/
theorem selectsContaining_forall_iff (hlib : QuoteFree lib) :
    (∀ db : Db, db.capInfo.length < 2 ^ 31 →
        SelectsContaining other unset db lib) ↔
      ∀ c ∈ lib, Literal c := by
  rw [← like_within_infix_iff]
  constructor
  · intro hall path hpath
    have hlength : (capAt path).capInfo.length < 2 ^ 31 := by
      simp only [capAt, List.length_singleton]
      omega
    have hone := hall (capAt path) hlength
    rw [selectsContaining_iff_readable, libReadable_iff_of_quoteFree hlib]
      at hone
    exact hone.1 _ List.mem_cons_self hpath
  · intro hstray db hlength
    rw [selectsContaining_iff_readable, libReadable_iff_of_quoteFree hlib]
    exact ⟨fun c _ => hstray c.capLocPath,
      (List.length_filter_le _ _).trans_lt hlength⟩

end Selection

/-- What a library name selects.  The first part is about every name, the other
two are about the names without a quote: in one table, and in all of them. -/
theorem libSelection_iff (other : Text → Option (CapInfo → Bool))
    (unset : Option Text) (db : Db) (lib : Text) :
    (SelectsContaining other unset db lib ↔ LibReadable other db lib) ∧
    (QuoteFree lib → (SelectsContaining other unset db lib ↔
      (∀ c ∈ db.capInfo, like (within lib) c.capLocPath = true →
        lib <:+: c.capLocPath) ∧
      (containing lib db.capInfo).length < 2 ^ 31)) ∧
    (QuoteFree lib → ((∀ db : Db, db.capInfo.length < 2 ^ 31 →
      SelectsContaining other unset db lib) ↔ ∀ c ∈ lib, Literal c)) := by
  refine ⟨selectsContaining_iff_readable, fun hlib => ?_, fun hlib =>
    selectsContaining_forall_iff hlib⟩
  rw [selectsContaining_iff_readable, libReadable_iff_of_quoteFree hlib]

/-- The `_` of a library name is matched by the `-` of another library. -/
theorem underscore_selects_other : ¬ SelectsContaining (fun _ => none) none
    (capAt "/usr/lib/my-lib.so".toList) "my_lib".toList := by
  rw [selectsContaining_iff_readable, libReadable_iff_of_quoteFree (by decide)]
  rintro ⟨hstray, -⟩
  have hinfix := hstray _ List.mem_cons_self (by decide)
  revert hinfix
  decide

end Chericat
