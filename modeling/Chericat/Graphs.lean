import Mathlib.Data.Char
import Mathlib.Data.List.Lex
import Chericat.Database
import Chericat.ProgramRun
import Chericat.SqlLike

/-!
The graphs of `full_graph.py`, `cap_graph.py` and `comparts_graph.py`: which
edges they draw between libraries and between compartments.  `none` is a
raised exception; a pen width is kept as ten to its power, a real number that
`math.log` makes grow by one.
-/

namespace Chericat

open Numeral SqlLike

/-! ### Queries and tests -/

/-- The quote that ends a string of SQL. -/
def apostrophe : Char := Char.ofNat 39

/-- What SQLite makes of a text with such a quote in it, which ends the pattern
early; `none` is an error. -/
structure Quoted where
  vm : Text → Option (List VmInfo)
  capInfo : Text → Option (List CapInfo)

/-- `SELECT … FROM vm WHERE mmap_path LIKE '%text%'`. -/
def rowsLike (q : Quoted) (db : Db) (text : Text) : Option (List VmInfo) :=
  if apostrophe ∈ text then q.vm text
  else some (db.vm.filter fun v => like (within text) v.mmapPath)

/-- `SELECT … FROM cap_info WHERE cap_loc_path LIKE '%lib%'`. -/
def libCaps (q : Quoted) (db : Db) (lib : Text) : Option (List CapInfo) :=
  if apostrophe ∈ lib then q.capInfo lib
  else some (db.capInfo.filter fun c => like (within lib) c.capLocPath)

/-- `cap_addr >= lib_start_addr and cap_addr <= lib_end_addr`, on texts. -/
def pointsInto (capAddr : Text) (v : VmEntry) : Bool :=
  v.startAddr ≤ capAddr && capAddr ≤ v.endAddr

/-- `s[:-6]`. -/
def cutSuffix (s : Text) : Text := s.take (s.length - 6)

/-- The test that keeps a library from pointing to itself. -/
def sameLibrary (capPath path : Text) : Bool :=
  capPath = path || capPath = cutSuffix path || cutSuffix capPath = path ||
    cutSuffix capPath = cutSuffix path

/-! ### Nodes and edges -/

structure Node where
  id : Text
  txt : Text
  fillcolor : Text
  rank : Text
deriving Repr, DecidableEq

structure Edge where
  src : Text
  dest : Text
  label : Text
  penwidth : Option Nat
deriving Repr, DecidableEq

structure Graph where
  nodes : List Node
  edges : List Edge
deriving Repr, DecidableEq

def Edge.joins (e : Edge) (src dest : Text) : Bool :=
  e.src = src && e.dest = dest

/-- The edges so far, and the variable `penwidth_weight` when it is bound. -/
structure EdgeState where
  edges : List Edge
  penwidth : Option Nat
deriving Repr, DecidableEq

/-- Take the first edge with the same ends and label out of the list. -/
def EdgeState.strengthen (s : EdgeState) (src dest label : Text) :
    EdgeState :=
  match s.edges.find? fun e => e.joins src dest && e.label = label with
  | some e => ⟨s.edges.erase e, e.penwidth.map (· + 1)⟩
  | none => s

def EdgeState.append (s : EdgeState) (src dest label : Text) :
    Option EdgeState :=
  s.penwidth.map fun w =>
    { s with edges := s.edges ++ [⟨src, dest, label, some w⟩] }

/-! ### The graph of all libraries -/

def isRegion (path : Text) : Bool :=
  path = "unknown".toList || path = "Stack".toList || path = "Guard".toList

def regionLabel (path startAddr : Text) : Text :=
  path ++ " (".toList ++ startAddr ++ ")".toList

/-- The label of the node of a path, whose blocks are the `ranges`. -/
def pathLabel (path : Text) (ranges : List VmInfo) : Option Text :=
  if isRegion path then
    ranges.head?.map fun v => regionLabel path v.startAddr
  else some path

/-- The label of the source of an edge. -/
def capPathLabel (db : Db) (path : Text) : Option Text :=
  if isRegion path then
    (db.vm.find? (·.mmapPath = path)).map fun v =>
      regionLabel path v.startAddr
  else some path

def pathNode (path label : Text) : Node :=
  if isRegion path then ⟨label, label, "lightgrey".toList, "source".toList⟩
  else ⟨label, label, "lightblue".toList, "max".toList⟩

def fullGraphStep (db : Db) (path label : Text) (cap : CapInfo)
    (s : EdgeState) (range : VmInfo) : Option EdgeState :=
  if pointsInto cap.capAddr range.toVmEntry &&
      !sameLibrary cap.capLocPath path then do
    let src ← capPathLabel db cap.capLocPath
    (s.strengthen src label cap.perms).append src label cap.perms
  else some s

def fullGraphCap (db : Db) (path label : Text) (ranges : List VmInfo)
    (edges : List Edge) (cap : CapInfo) : Option (List Edge) :=
  (Steps.run (fullGraphStep db path label cap) ⟨edges, some 10⟩
    ranges).map EdgeState.edges

def fullGraphPath (q : Quoted) (db : Db) (g : Graph) (path : Text) :
    Option Graph := do
  let ranges ← rowsLike q db path
  let label ← pathLabel path ranges
  let edges ← Steps.run (fullGraphCap db path label ranges) g.edges db.capInfo
  some ⟨g.nodes ++ [pathNode path label], edges⟩

def genFullGraph (q : Quoted) (db : Db) : Option Graph :=
  Steps.run (fullGraphPath q db) ⟨[], []⟩
    (db.vm.map (·.mmapPath)).eraseDups

/-! ### The graph of two libraries -/

def twoLibsStep (src dest : Text) (cap : CapInfo) (s : EdgeState)
    (range : VmInfo) : Option EdgeState :=
  if pointsInto cap.capAddr range.toVmEntry then
    (s.strengthen src dest cap.perms).append src dest cap.perms
  else some s

/-- The edges of `show_caps_between_two_libs`.  Only the first of its two loops
sets the pen width anew for each capability. -/
def twoLibsEdges (q : Quoted) (db : Db) (lib1 lib2 : Text) :
    Option (List Edge) := do
  let lib1Caps ← libCaps q db lib1
  let lib2Caps ← libCaps q db lib2
  let lib1Ranges ← rowsLike q db lib1
  let lib2Ranges ← rowsLike q db lib2
  let s ← Steps.run
    (fun s cap => Steps.run (twoLibsStep lib1 lib2 cap)
      { s with penwidth := some 10 } lib2Ranges)
    ⟨[], none⟩ lib1Caps
  let s ← Steps.run
    (fun s cap => Steps.run (twoLibsStep lib2 lib1 cap) s lib1Ranges)
    s lib2Caps
  some s.edges

/-! ### The graphs of the compartments -/

/-- The first compartment among the blocks that match the path. -/
def compartOf (q : Quoted) (db : Db) (path : Text) : Option Int := do
  let rows ← rowsLike q db path
  rows.head?.map (·.compartId)

def compartNode (compartId : Int) (text : Text) : Node :=
  { id := decText compartId
    txt := decText compartId ++ ": ".toList ++ text
    fillcolor := (if compartId < 0 then "lightgrey" else "lightblue").toList
    rank := (if compartId < 0 then "source" else "max").toList }

/-- The distinct paths of a compartment. -/
def compartPaths (db : Db) (compartId : Int) : List Text :=
  ((db.vm.filter (·.compartId = compartId)).map (·.mmapPath)).eraseDups

/-- A capability and a range of `path`, a path of `compartId`. -/
def compartEdgeStep (q : Quoted) (db : Db) (compartId : Int) (path : Text)
    (cap : CapInfo) (s : EdgeState) (range : VmInfo) : Option EdgeState :=
  if pointsInto cap.capAddr range.toVmEntry &&
      !sameLibrary cap.capLocPath path then do
    let capCompartId ← compartOf q db cap.capLocPath
    let src := decText capCompartId
    let dest := decText compartId
    let s := s.strengthen src dest cap.perms
    if src ≠ dest then s.append src dest cap.perms else some s
  else some s

def compartCap (q : Quoted) (db : Db) (compartId : Int) (path : Text)
    (ranges : List VmInfo) (edges : List Edge) (cap : CapInfo) :
    Option (List Edge) :=
  (Steps.run (compartEdgeStep q db compartId path cap) ⟨edges, some 10⟩
    ranges).map EdgeState.edges

def compartPath (q : Quoted) (db : Db) (compartId : Int) (edges : List Edge)
    (path : Text) : Option (List Edge) := do
  let ranges ← rowsLike q db path
  Steps.run (compartCap q db compartId path ranges) edges db.capInfo

def compartEdges (q : Quoted) (db : Db) (edges : List Edge)
    (compartId : Int) : Option (List Edge) :=
  Steps.run (compartPath q db compartId) edges (compartPaths db compartId)

def showComparts (q : Quoted) (db : Db) : Option Graph := do
  let compartIds := (db.vm.map (·.compartId)).eraseDups
  let edges ← Steps.run (compartEdges q db) [] compartIds
  some
    { nodes := compartIds.map fun i =>
        compartNode i ((compartPaths db i).intersperse ", ".toList).flatten
      edges := edges }

/-- `os.path.basename`. -/
def baseName (path : Text) : Text :=
  (path.reverse.takeWhile (· ≠ '/')).reverse

/-- A capability and a range of a block with the given base name. -/
def hasCapsStep (q : Quoted) (db : Db) (compartId : Int) (name : Text)
    (cap : CapInfo) (edges : List Edge) (range : VmInfo) :
    Option (List Edge) :=
  if pointsInto cap.capAddr range.toVmEntry &&
      !sameLibrary cap.capLocPath name then do
    let capCompartId ← compartOf q db cap.capLocPath
    let src := decText capCompartId
    let dest := decText compartId
    let edges :=
      match edges.find? (·.joins src dest) with
      | some e => edges.erase e
      | none => edges
    some (if src ≠ dest then edges ++ [⟨src, dest, [], none⟩] else edges)
  else some edges

def hasCapsCap (q : Quoted) (db : Db) (compartId : Int) (name : Text)
    (ranges : List VmInfo) (edges : List Edge) (cap : CapInfo) :
    Option (List Edge) :=
  Steps.run (hasCapsStep q db compartId name cap) edges ranges

def hasCapsRow (q : Quoted) (db : Db) (edges : List Edge) (row : Int × Text) :
    Option (List Edge) := do
  let ranges ← rowsLike q db (baseName row.2)
  Steps.run (hasCapsCap q db row.1 (baseName row.2) ranges) edges db.capInfo

def showCompartsHasCaps (q : Quoted) (db : Db) : Option Graph := do
  let rows := (db.vm.map fun v => (v.compartId, v.mmapPath)).eraseDups
  let edges ← Steps.run (hasCapsRow q db) [] rows
  some
    { nodes := rows.map fun r => compartNode r.1 (baseName r.2)
      edges := edges }

end Chericat
