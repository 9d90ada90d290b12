import Mathlib.Data.List.Sort
import Chericat.SqlStatement

/-!
The four tables of `db_process.c`, the statements the scan hands to
`sql_query_exec`, and what each of them does to the tables when it succeeds.
-/

namespace Chericat

open Numeral SqlText

abbrev Text := List Char

/-- `u_long` and `uintptr_t`. -/
abbrev ULong := BitVec 64

/-- The text of an address determines it. -/
theorem hexText_eq_iff {a b : ULong} :
    hexText a.toNat = hexText b.toNat ↔ a = b :=
  ⟨fun h => BitVec.eq_of_toNat_eq (hexText_injective h), fun h => by rw [h]⟩

/-- The columns `scan_mem` inserts into `vm`. -/
structure VmEntry where
  startAddr : Text
  endAddr : Text
  mmapPath : Text
  compartId : Int
  kveProtection : Int
  mmapFlags : Int
  vnodeType : Int
deriving Repr, DecidableEq

/-- A row of `vm`; the last four columns are filled by a later `UPDATE`. -/
structure VmInfo extends VmEntry where
  pltAddr : Option Text
  pltSize : Option Text
  gotAddr : Option Text
  gotSize : Option Text
deriving Repr, DecidableEq

def VmEntry.inserted (e : VmEntry) : VmInfo := ⟨e, none, none, none, none⟩

structure CapInfo where
  capLocAddr : Text
  capLocPath : Text
  capAddr : Text
  perms : Text
  base : Text
  top : Text
deriving Repr, DecidableEq

structure SymInfo where
  sourcePath : Text
  symName : Text
  symOffset : Text
  shndx : Text
  type : Text
  bind : Text
  addr : Text
deriving Repr, DecidableEq

structure CompInfo where
  compartId : Int
  compartName : Option Text
  libraryPath : Option Text
  startAddr : Option Text
  endAddr : Option Text
  isDefault : Option Int
  parentId : Option Int
deriving Repr, DecidableEq

/-! ### The table keyed by compartment id -/

/-- `compart_id` is the primary key, so the rows of `comparts` are in strictly
increasing order of it. -/
structure Comparts where
  rows : List CompInfo
  sorted : (rows.map CompInfo.compartId).Pairwise (· < ·)
deriving Repr, DecidableEq

def insertRow (row : CompInfo) : List CompInfo → List CompInfo
  | [] => [row]
  | r :: rs =>
      if r.compartId < row.compartId then r :: insertRow row rs
      else if r.compartId = row.compartId then row :: rs
      else row :: r :: rs

theorem mem_insertRow_id {row : CompInfo} {rows : List CompInfo} {i : Int}
    (hi : i ∈ (insertRow row rows).map CompInfo.compartId) :
    i = row.compartId ∨ i ∈ rows.map CompInfo.compartId := by
  induction rows with
  | nil => simpa [insertRow] using hi
  | cons r rs ih =>
      rw [insertRow] at hi
      split at hi
      · simp only [List.map_cons, List.mem_cons] at hi ⊢
        rcases hi with hi | hi
        · exact Or.inr (Or.inl hi)
        · exact (ih hi).imp_right Or.inr
      · split at hi
        · simp only [List.map_cons, List.mem_cons] at hi ⊢
          exact hi.imp_right Or.inr
        · simpa using hi

theorem insertRow_sorted (row : CompInfo) {rows : List CompInfo}
    (h : (rows.map CompInfo.compartId).Pairwise (· < ·)) :
    ((insertRow row rows).map CompInfo.compartId).Pairwise (· < ·) := by
  induction rows with
  | nil => simp [insertRow]
  | cons r rs ih =>
      simp only [List.map_cons, List.pairwise_cons] at h
      obtain ⟨hhead, htail⟩ := h
      rw [insertRow]
      split
      · next hlt =>
          simp only [List.map_cons, List.pairwise_cons]
          refine ⟨?_, ih htail⟩
          intro i hi
          rcases mem_insertRow_id hi with rfl | hi
          · exact hlt
          · exact hhead i hi
      · split
        · next heq =>
            simp only [List.map_cons, List.pairwise_cons]
            exact ⟨fun i hi => heq ▸ hhead i hi, htail⟩
        · next hnlt hne =>
            simp only [List.map_cons, List.pairwise_cons, List.mem_cons]
            refine ⟨?_, hhead, htail⟩
            rintro i (rfl | hi)
            · omega
            · have := hhead i hi
              omega

namespace Comparts

def empty : Comparts := ⟨[], by simp⟩

/-- `INSERT OR REPLACE`. -/
def replace (row : CompInfo) (t : Comparts) : Comparts :=
  ⟨insertRow row t.rows, insertRow_sorted row t.sorted⟩

/-- `SET compart_name = … WHERE compart_id = …` on one row. -/
def setName (name : CompInfo → Option Text) (id : Int) (r : CompInfo) :
    CompInfo :=
  if r.compartId = id then { r with compartName := name r } else r

@[simp] theorem setName_compartId (name : CompInfo → Option Text) (id : Int)
    (r : CompInfo) : (setName name id r).compartId = r.compartId := by
  unfold setName
  split <;> rfl

/-- `UPDATE`, the new name being computed from the row. -/
def updateNameBy (name : CompInfo → Option Text) (id : Int) (t : Comparts) :
    Comparts :=
  ⟨t.rows.map (setName name id), by
    simpa [Function.comp_def] using t.sorted⟩

def updateName (name : Option Text) (id : Int) (t : Comparts) : Comparts :=
  t.updateNameBy (fun _ => name) id

/-- The row with a given key. -/
def lookup (t : Comparts) (id : Int) : Option CompInfo :=
  t.rows.find? (·.compartId = id)

theorem mem_rows_iff (t : Comparts) (r : CompInfo) :
    r ∈ t.rows ↔ t.lookup r.compartId = some r := by
  constructor
  · intro hr
    obtain ⟨rows, hsorted⟩ := t
    induction rows with
    | nil => simp at hr
    | cons head tail ih =>
        simp only [List.map_cons, List.pairwise_cons] at hsorted
        simp only [List.mem_cons] at hr
        rcases hr with rfl | hr
        · simp [lookup]
        · have hne : head.compartId ≠ r.compartId := by
            have := hsorted.1 _ (List.mem_map_of_mem hr)
            omega
          have := ih hsorted.2 hr
          simpa [lookup, hne] using this
  · exact List.mem_of_find?_eq_some

/-- Keyed tables are determined by their look-ups. -/
theorem ext_lookup {t u : Comparts} (h : ∀ id, t.lookup id = u.lookup id) :
    t = u := by
  have hperm : t.rows.Perm u.rows := by
    rw [List.perm_ext_iff_of_nodup (List.Nodup.of_map _ (t.sorted.imp ne_of_lt))
      (List.Nodup.of_map _ (u.sorted.imp ne_of_lt))]
    intro r
    rw [mem_rows_iff, mem_rows_iff, h]
  have hrows : t.rows = u.rows := by
    have hts : t.rows.Pairwise (fun a b => a.compartId < b.compartId) :=
      List.pairwise_map.mp t.sorted
    have hus : u.rows.Pairwise (fun a b => a.compartId < b.compartId) :=
      List.pairwise_map.mp u.sorted
    exact hperm.eq_of_pairwise (fun a b _ _ hab hba => absurd hab (by omega)) hts hus
  obtain ⟨rows, _⟩ := t
  obtain ⟨rows', _⟩ := u
  cases hrows
  rfl

theorem find?_insertRow (row : CompInfo) (rows : List CompInfo) (id : Int)
    (h : (rows.map CompInfo.compartId).Pairwise (· < ·)) :
    (insertRow row rows).find? (·.compartId = id) =
      if id = row.compartId then some row
      else rows.find? (·.compartId = id) := by
  induction rows with
  | nil =>
      by_cases hid : id = row.compartId
      · simp [insertRow, hid]
      · simp [insertRow, hid, Ne.symm hid]
  | cons r rs ih =>
      simp only [List.map_cons, List.pairwise_cons] at h
      have htail := ih h.2
      rw [insertRow]
      split
      · next hlt =>
          by_cases hid : r.compartId = id
          · have : id ≠ row.compartId := by omega
            simp [hid, this]
          · simp [hid, htail]
      · split
        · next heq =>
            by_cases hid : id = row.compartId
            · simp [hid]
            · have hne : r.compartId ≠ id := by omega
              have hne' : row.compartId ≠ id := by omega
              simp [hid, hne, hne']
        · by_cases hid : id = row.compartId
          · simp [hid]
          · have hne' : row.compartId ≠ id := by omega
            simp [hid, hne']

@[simp] theorem lookup_replace (row : CompInfo) (t : Comparts) (id : Int) :
    (t.replace row).lookup id =
      if id = row.compartId then some row else t.lookup id :=
  find?_insertRow row t.rows id t.sorted

@[simp] theorem lookup_updateNameBy (name : CompInfo → Option Text) (i : Int)
    (t : Comparts) (id : Int) :
    (t.updateNameBy name i).lookup id =
      (t.lookup id).map (setName name i) := by
  have hid : (fun r : CompInfo => decide (r.compartId = id)) ∘ setName name i =
      fun r => decide (r.compartId = id) := by
    funext r
    simp
  rw [lookup, updateNameBy, List.find?_map, hid, lookup]

@[simp] theorem lookup_updateName (name : Option Text) (i : Int)
    (t : Comparts) (id : Int) :
    (t.updateName name i).lookup id =
      (t.lookup id).map (setName (fun _ => name) i) :=
  lookup_updateNameBy _ i t id

end Comparts

structure Db where
  vm : List VmInfo
  capInfo : List CapInfo
  elfSym : List SymInfo
  comparts : Comparts
deriving Repr, DecidableEq

def Db.empty : Db := ⟨[], [], [], Comparts.empty⟩

/-! ### Statements -/

/-- The value list of an `INSERT`; the code never sends an empty one. -/
structure Batch (α : Type) where
  rows : List α
  nonempty : rows ≠ []
deriving Repr, DecidableEq

/-- The `.plt` and `.got` of one parsed file, as `scan_mem` prints them into
its final `UPDATE`. -/
structure SectionUpdate where
  pltAddr : ULong
  pltSize : ULong
  gotAddr : ULong
  gotSize : ULong
  mmapPath : Text
deriving Repr, DecidableEq

def SectionUpdate.apply (u : SectionUpdate) (r : VmInfo) : VmInfo :=
  if r.mmapPath = u.mmapPath then
    { r with
      pltAddr := some (hexText u.pltAddr.toNat)
      pltSize := some (hexText u.pltSize.toNat)
      gotAddr := some (hexText u.gotAddr.toNat)
      gotSize := some (hexText u.gotSize.toNat) }
  else r

/-- The library of a link-map object, as `scan_rtld_linkmap` records it. -/
structure DefaultCompart where
  compartId : Int
  libraryPath : Text
  startAddr : ULong
  endAddr : ULong
  isDefault : Int
deriving Repr, DecidableEq

structure Subcompart where
  compartId : Int
  compartName : Text
  startAddr : ULong
  endAddr : ULong
  isDefault : Int
  parentId : Int
deriving Repr, DecidableEq

def DefaultCompart.row (c : DefaultCompart) : CompInfo :=
  { compartId := c.compartId
    compartName := none
    libraryPath := some c.libraryPath
    startAddr := some (hexText c.startAddr.toNat)
    endAddr := some (hexText c.endAddr.toNat)
    isDefault := some c.isDefault
    parentId := none }

def Subcompart.row (c : Subcompart) : CompInfo :=
  { compartId := c.compartId
    compartName := some c.compartName
    libraryPath := none
    startAddr := some (hexText c.startAddr.toNat)
    endAddr := some (hexText c.endAddr.toNat)
    isDefault := some c.isDefault
    parentId := some c.parentId }

/-- The statements of a scan, each with the values printed into it.
`indeterminate` is the statement whose value list is whatever an
uninitialised pointer pointed at. -/
inductive Statement where
  | createTable (ddl : Text)
  | insertVm (values : Batch VmEntry)
  | insertCapInfo (values : Batch CapInfo)
  | insertElfSym (values : Batch SymInfo)
  | replaceDefault (c : DefaultCompart)
  | replaceSubcompart (c : Subcompart)
  | updateCompartName (name : Text) (id : Int)
  | updateVm (u : SectionUpdate)
  | indeterminate (hdr values : Text)
deriving Repr, DecidableEq

/-- What a statement that succeeds does to the tables.  `CREATE TABLE IF NOT
EXISTS` never changes their contents, and an indeterminate value list is not
a row. -/
def Statement.run : Statement → Db → Db
  | .createTable _, db => db
  | .insertVm b, db => { db with vm := db.vm ++ b.rows.map VmEntry.inserted }
  | .insertCapInfo b, db => { db with capInfo := db.capInfo ++ b.rows }
  | .insertElfSym b, db => { db with elfSym := db.elfSym ++ b.rows }
  | .replaceDefault c, db => { db with comparts := db.comparts.replace c.row }
  | .replaceSubcompart c, db => { db with comparts := db.comparts.replace c.row }
  | .updateCompartName name id, db =>
      { db with comparts := db.comparts.updateName (some name) id }
  | .updateVm u, db => { db with vm := db.vm.map u.apply }
  | .indeterminate _ _, db => db

/-- All statements succeed, one after the other. -/
def runAll (ss : List Statement) (db : Db) : Db :=
  ss.foldl (fun db s => s.run db) db

@[simp] theorem runAll_nil (db : Db) : runAll [] db = db := rfl

@[simp] theorem runAll_cons (s : Statement) (ss : List Statement) (db : Db) :
    runAll (s :: ss) db = runAll ss (s.run db) := rfl

/-! ### Statement texts -/

def VmEntry.fields (e : VmEntry) : List Expr :=
  [.quoted e.startAddr, .quoted e.endAddr, .quoted e.mmapPath,
    .int e.compartId, .int e.kveProtection, .int e.mmapFlags,
    .int e.vnodeType]

def CapInfo.fields (c : CapInfo) : List Expr :=
  [.quoted c.capLocAddr, .quoted c.capLocPath, .quoted c.capAddr,
    .quoted c.perms, .quoted c.base, .quoted c.top]

def SymInfo.fields (s : SymInfo) : List Expr :=
  [.quoted s.sourcePath, .quoted s.symName, .quoted s.symOffset,
    .quoted s.shndx, .quoted s.type, .quoted s.bind, .quoted s.addr]

def DefaultCompart.fields (c : DefaultCompart) : List Expr :=
  [.int c.compartId, .quoted c.libraryPath,
    .quoted (hexText c.startAddr.toNat), .quoted (hexText c.endAddr.toNat),
    .int c.isDefault]

def Subcompart.fields (c : Subcompart) : List Expr :=
  [.int c.compartId, .quoted c.compartName,
    .quoted (hexText c.startAddr.toNat), .quoted (hexText c.endAddr.toNat),
    .int c.isDefault, .int c.parentId]

def vmTable : Text :=
  ("CREATE TABLE IF NOT EXISTS vm(" ++
    "start_addr VARCHAR NOT NULL, " ++
    "end_addr VARCHAR NOT NULL, " ++
    "mmap_path VARCHAR NOT NULL, " ++
    "compart_id INTEGER NOT NULL, " ++
    "kve_protection INTEGER NOT NULL, " ++
    "mmap_flags INTEGER NOT NULL, " ++
    "vnode_type INTEGER NOT NULL, " ++
    "plt_addr VARCHAR, " ++
    "plt_size VARCHAR, " ++
    "got_addr VARCHAR, " ++
    "got_size VARCHAR);").toList

def capInfoTable : Text :=
  ("CREATE TABLE IF NOT EXISTS cap_info(" ++
    "cap_loc_addr VARCHAR NOT NULL, " ++
    "cap_loc_path VARCHAR NOT NULL, " ++
    "cap_addr VARCHAR NOT NULL, " ++
    "perms VARCHAR NOT NULL, " ++
    "base VARCHAR NOT NULL, " ++
    "top VARCHAR NOT NULL);").toList

def elfSymTable : Text :=
  ("CREATE TABLE IF NOT EXISTS elf_sym(" ++
    "source_path VARCHAR NOT NULL, " ++
    "st_name VARCHAR NOT NULL, " ++
    "st_value VARCHAR NOT NULL, " ++
    "st_shndx VARCHAR NOT NULL, " ++
    "type VARCHAR NOT NULL, " ++
    "bind VARCHAR NOT NULL, " ++
    "addr VARCHAR NOT NULL);").toList

def compartsTable : Text :=
  ("CREATE TABLE IF NOT EXISTS comparts(" ++
    "compart_id INTEGER PRIMARY KEY, " ++
    "compart_name VARCHAR, " ++
    "library_path VARCHAR, " ++
    "start_addr VARCHAR, " ++
    "end_addr VARCHAR, " ++
    "is_default INTEGER, " ++
    "parent_id INTEGER);").toList

def vmHdr : Text :=
  ("INSERT INTO vm(start_addr, end_addr, mmap_path, compart_id, " ++
    "kve_protection, mmap_flags, vnode_type) VALUES").toList

def capInfoHdr : Text := "INSERT INTO cap_info VALUES ".toList

def elfSymHdr : Text := "INSERT INTO elf_sym VALUES ".toList

def defaultHdr : Text :=
  ("INSERT OR REPLACE INTO comparts(compart_id, library_path, start_addr, " ++
    "end_addr, is_default) VALUES ").toList

def subcompartHdr : Text :=
  ("INSERT OR REPLACE INTO comparts(compart_id, compart_name, start_addr, " ++
    "end_addr, is_default, parent_id) VALUES ").toList

def compartNameHdr : Text := "UPDATE comparts SET compart_name=".toList

def compartNameWhere : Text := "WHERE compart_id=".toList

/-- `"0x%lx"` of a value. -/
def hexField (n : ULong) : Text := (Expr.quoted (hexText n.toNat)).text

/-- The `UPDATE` of the section columns. -/
def SectionUpdate.text (u : SectionUpdate) : Text :=
  "UPDATE vm SET plt_addr=".toList ++ hexField u.pltAddr ++
    ", plt_size=".toList ++ hexField u.pltSize ++
    ", got_addr=".toList ++ hexField u.gotAddr ++
    ", got_size=".toList ++ hexField u.gotSize ++
    " WHERE mmap_path=".toList ++ (Expr.quoted u.mmapPath).text ++ [';']

/-- The text handed to `sqlite3_exec`. -/
def Statement.text : Statement → Text
  | .createTable ddl => ddl
  | .insertVm b => vmHdr ++ rowsText (b.rows.map VmEntry.fields) ++ [';']
  | .insertCapInfo b =>
      capInfoHdr ++ rowsText (b.rows.map CapInfo.fields) ++ [';']
  | .insertElfSym b =>
      elfSymHdr ++ rowsText (b.rows.map SymInfo.fields) ++ [';']
  | .replaceDefault c => defaultHdr ++ rowsText [c.fields] ++ [';']
  | .replaceSubcompart c => subcompartHdr ++ rowsText [c.fields] ++ [';']
  | .updateCompartName name id =>
      compartNameHdr ++ (Expr.quoted name).text ++ ' ' :: compartNameWhere ++
        (Expr.int id).text ++ [';']
  | .updateVm u => u.text
  | .indeterminate hdr values => hdr ++ values ++ [';']

end Chericat
