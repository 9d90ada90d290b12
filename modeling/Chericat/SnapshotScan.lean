import Chericat.AttachWindows
import Chericat.BlockTotals

/-!
A scan of a process that goes on running between the windows.  The scan is
interleaved with steps of the target; what it records is compared with the
memory at the instants of the run.
-/

namespace Chericat

open Numeral

/-! ### The target's memory -/

/-- A slot of memory that can hold a capability. -/
structure Granule where
  addr : ULong
  aligned : addr.toNat % 16 = 0
deriving Repr, DecidableEq

/-- Which granules hold a tagged capability. -/
abbrev GranuleTags := Granule → Bool

/-- What the target does to its capabilities. -/
inductive TargetStep where
  | move (src dst : Granule)
  | create (g : Granule)
  | destroy (g : Granule)
deriving Repr, DecidableEq

def TargetStep.apply : TargetStep → GranuleTags → GranuleTags
  | .move src dst, tags =>
      if tags src then
        Function.update (Function.update tags src false) dst true
      else tags
  | .create g, tags => Function.update tags g true
  | .destroy g, tags => Function.update tags g false

/-! ### Interleavings -/

/-- An action of the scan or a step of the target. -/
inductive Tick where
  | scan (e : Event)
  | target (a : TargetStep)
deriving Repr, DecidableEq

/-- The memory, whether the target is stopped, and the memory that each window
opened so far has shown. -/
structure System where
  tags : GranuleTags
  attached : Bool
  windows : List GranuleTags

namespace System

def start (tags : GranuleTags) : System := ⟨tags, false, []⟩

/-- The target takes no step while it is stopped. -/
def step (s : System) : Tick → Option System
  | .scan .attach =>
      some { s with attached := true, windows := s.windows ++ [s.tags] }
  | .scan .detach => some { s with attached := false }
  | .scan _ => some s
  | .target a =>
      if s.attached then none else some { s with tags := a.apply s.tags }

/-- An attach opens a window on the memory, a step of the target changes the
memory, and nothing else changes either. -/
theorem step_cases {s s' : System} {tick : Tick}
    (h : s.step tick = some s') :
    (tick = .scan .attach ∧ s'.attached = true ∧ s'.tags = s.tags ∧
        s'.windows = s.windows ++ [s.tags]) ∨
      (∃ e, tick = .scan e ∧ e ≠ .attach ∧
        (s'.attached = true → s.attached = true) ∧ s'.tags = s.tags ∧
        s'.windows = s.windows) ∨
      ∃ a, tick = .target a ∧ s'.attached = false ∧
        s'.tags = a.apply s.tags ∧ s'.windows = s.windows := by
  cases tick with
  | scan e =>
      cases e with
      | attach =>
          cases h
          exact Or.inl ⟨rfl, rfl, rfl, rfl⟩
      | detach =>
          cases h
          exact Or.inr (Or.inl ⟨_, rfl, nofun, nofun, rfl, rfl⟩)
      | io _ =>
          cases h
          exact Or.inr (Or.inl ⟨_, rfl, nofun, id, rfl, rfl⟩)
      | exec _ =>
          cases h
          exact Or.inr (Or.inl ⟨_, rfl, nofun, id, rfl, rfl⟩)
  | target a =>
      cases hattached : s.attached with
      | true => simp [step, hattached] at h
      | false =>
          simp only [step, hattached, Bool.false_eq_true, if_false,
            Option.some.injEq] at h
          subst h
          exact Or.inr (Or.inr ⟨a, rfl, rfl, rfl, rfl⟩)

/-- The ticks, one after the other. -/
def run (s : System) (ticks : List Tick) : Option System :=
  Steps.run step s ticks

end System

/-- The actions of the scan in an interleaving. -/
def scanEvents (ticks : List Tick) : List Event :=
  ticks.filterMap fun
    | .scan e => some e
    | .target _ => none

theorem scanEvents_map_scan (es : List Event) :
    scanEvents (es.map .scan) = es := by
  simp [scanEvents, List.filterMap_map]

/-- Every attach opens one window. -/
theorem windows_length {s s' : System} {ticks : List Tick}
    (h : s.run ticks = some s') :
    s'.windows.length =
      s.windows.length + (scanEvents ticks).count .attach := by
  induction ticks generalizing s with
  | nil =>
      cases h
      rfl
  | cons tick rest ih =>
      obtain ⟨u, hu, hrest⟩ := Steps.run_cons_eq_some.mp h
      have htail := ih hrest
      rcases System.step_cases hu with ⟨rfl, _, _, hwindows⟩ |
        ⟨e, rfl, hne, _, _, hwindows⟩ | ⟨a, rfl, _, _, hwindows⟩
      · simp [hwindows, scanEvents] at htail ⊢
        omega
      · simp [hwindows, scanEvents, hne] at htail ⊢
        omega
      · simpa [hwindows, scanEvents] using htail

/-! ### The windows of a completed scan -/

theorem count_attach_of_within {α : Type} {m : Scan α} {reads : Bool}
    {tb : Table} (h : Run.Emits (Event.Within reads tb) m) :
    m.trace.count .attach = 0 := by
  rw [List.count_eq_zero]
  exact fun hattach => h .attach hattach

theorem count_attach_window {α : Type} {m : Scan α} {a : α} {tb : Table}
    (h : Run.Emits (Event.Within true tb) m)
    (hok : (WindowMark.window .attach .detach m).outcome = .ok a) :
    (WindowMark.window .attach .detach m).trace.count .attach = 1 := by
  have hnone := count_attach_of_within h
  have hm : ∃ b, m.outcome = .ok b := by
    obtain ⟨_, _, hok⟩ := Run.bind_eq_ok hok
    obtain ⟨b, hb, _⟩ := Run.bind_eq_ok hok
    exact ⟨b, hb⟩
  obtain ⟨b, hb⟩ := hm
  obtain ⟨trace, outcome⟩ := m
  cases hb
  change (Event.attach :: (trace ++ [.detach])).count .attach = 1
  simpa using hnone

theorem count_attach_getRDebug {t : Target} {debug : RDebug}
    (h : (getRDebug t).outcome = .ok debug) :
    (getRDebug t).trace.count .attach = 1 := by
  rw [getRDebug_eq] at h ⊢
  cases hauxv : t.auxv with
  | none =>
      rw [hauxv] at h
      cases h
  | some auxv =>
      simp only [hauxv] at h ⊢
      split at h
      · cases h
      · next hsize =>
          rw [if_neg hsize]
          exact count_attach_window (@within_searchRDebug .vm t _ _) h

theorem count_attach_scanEntry {t : Target} {comparts : List CompartData}
    {st st' : ScanState} {entry : KinfoVmentry × Nat}
    (h : (scanEntry t comparts st entry).outcome = .ok st') :
    (scanEntry t comparts st entry).trace.count .attach = 1 := by
  obtain ⟨st₁, _, hblock, htrace, _⟩ := scanEntry_ok h
  have hfile := count_attach_of_within
    (@within_parseFile true t st entry.1)
  have hwindow : (scanBlock t entry.2 entry.1
      (mmapPath t st₁ entry.1)).trace.count .attach = 1 := by
    rw [scanBlock_eq] at hblock ⊢
    exact count_attach_window (within_scanPages t _ _ _) hblock
  rw [htrace, List.count_append, hfile, hwindow]

/-- The block loop opens one window for each block. -/
theorem count_attach_blocks {t : Target} {comparts : List CompartData}
    {entries : List (KinfoVmentry × Nat)} {st st' : ScanState}
    (h : (Run.loop (scanEntry t comparts) st entries).outcome = .ok st') :
    (Run.loop (scanEntry t comparts) st entries).trace.count .attach =
      entries.length := by
  refine Run.loop_induction (P := fun done tr _ =>
    tr.count .attach = done.length) h rfl ?_
  intro done tr b e b' hcount hstep
  rw [List.count_append, hcount, count_attach_scanEntry hstep,
    List.length_append]
  rfl

/-- Three windows come before those of the blocks: those of `get_r_debug`,
`scan_rtld_linkmap` and `scan_r_comparts`. -/
theorem count_attach_scanMem {t : Target} {map : List KinfoVmentry}
    (hmap : t.vmmap = some map) (h : (scanMem t).outcome = .ok ⟨⟩) :
    (scanMem t).trace.count .attach = map.length + 3 := by
  obtain ⟨c⟩ := exists_completedScan hmap h
  have hcomparts : (scanRtldLinkmap t c.debug).trace.count .attach = 1 :=
    count_attach_window (Run.Emits.loop (within_objectStep t) _ _)
      c.comparts_eq
  have hnames : (scanRComparts t c.debug).trace.count .attach = 1 :=
    count_attach_window (Run.Emits.loop (within_compartStep t) _ _) c.names_eq
  have hinsert := count_attach_of_within
    (@within_insertVmEntries true t c.final.values)
  have htables := count_attach_of_within (@within_createTables true .vm)
  rw [scanMem_eq_scanMap hmap h, scanMap, Run.trace_bind_ok createTables_ok,
    Run.trace_bind_ok c.debug_eq, Run.trace_bind_ok c.comparts_eq,
    Run.trace_bind_ok c.names_eq, Run.trace_bind_ok c.final_eq,
    Run.trace_bind_ok c.sent_eq, loop_updateStep]
  have hupdates : (c.final.ssect.map fun r =>
      Event.exec (.updateVm (sectionUpdate r))).count .attach = 0 := by
    rw [List.count_eq_zero]
    simp
  simp only [List.count_append, htables, count_attach_getRDebug c.debug_eq,
    hcomparts, hnames, count_attach_blocks c.final_eq, hinsert, hupdates,
    List.length_zipIdx]
  omega

/-! ### Runs -/

/-- The bitmaps that `ptrace` answers with are those of the memory `w`. -/
def Memory.Shows (m : Memory) (w : GranuleTags) : Prop :=
  ∀ (g : Granule) (tagsbuf : TagBuf), m.tags (pageOf g.addr) = some tagsbuf →
    tagsbuf[(bitOf g.addr).1].getLsbD (bitOf g.addr).2 = w g

/-- The page of a granule is answered for, and its bitmap decoded exactly. -/
def Memory.DecodedAt (m : Memory) (g : Granule) : Prop :=
  ∃ tagsbuf, m.tags (pageOf g.addr) = some tagsbuf ∧
    capturedBits tagsbuf = setBits tagsbuf

/-- The granule lies in a block that may hold capabilities. -/
def InBlock (t : Target) (kivp : KinfoVmentry) (g : Granule) : Prop :=
  hascap t kivp = true ∧ kivp.Contains g.addr

/-- A completed scan interleaved with steps of the target.  Block `i` has
window `i + 3`, and the scan sees there what the window shows. -/
structure ScanRun (t : Target) (map : List KinfoVmentry) where
  initial : GranuleTags
  ticks : List Tick
  final : System
  vmmap : t.vmmap = some map
  map_ok : MapOk map
  completed : (scanMem t).outcome = .ok ⟨⟩
  scan_eq : scanEvents ticks = (scanMem t).trace
  run_eq : (System.start initial).run ticks = some final
  shown : ∀ i w, final.windows[i + 3]? = some w → (t.memory i).Shows w
  decoded : ∀ i kivp g, map[i]? = some kivp → InBlock t kivp g →
    (t.memory i).DecodedAt g

section ScanRun

variable {t : Target} {map : List KinfoVmentry}

/-- The states at the instants of the run. -/
def ScanRun.Instant (r : ScanRun t map) (s : System) : Prop :=
  ∃ done rest, r.ticks = done ++ rest ∧
    (System.start r.initial).run done = some s

/-- The recorded locations are the tagged granules, in the blocks that may
hold capabilities, at one instant of the run. -/
def ScanRun.SnapshotTaken (r : ScanRun t map) : Prop :=
  ∃ s, r.Instant s ∧ ∀ text,
    text ∈ (dbScanned t Db.empty).capInfo.map CapInfo.capLocAddr ↔
      ∃ (g : Granule) (kivp : KinfoVmentry), kivp ∈ map ∧
        InBlock t kivp g ∧ s.tags g = true ∧ text = hexText g.addr.toNat

/-- The windows so far showed, each on its own block, what `tags` holds. -/
def WindowsAgree (t : Target) (map : List KinfoVmentry) (s : System)
    (tags : GranuleTags) : Prop :=
  ∀ i kivp w g, map[i]? = some kivp → s.windows[i + 3]? = some w →
    InBlock t kivp g → w g = tags g

/-- In this state each block has the tags that its own window showed: what
the target did in between has no effect on them in the end. -/
def ScanRun.Agrees (r : ScanRun t map) (s : System) : Prop :=
  WindowsAgree t map r.final s.tags

/-- The block of the granule has had its window. -/
def Visited (t : Target) (map : List KinfoVmentry) (s : System)
    (g : Granule) : Prop :=
  ∃ i kivp, map[i]? = some kivp ∧ InBlock t kivp g ∧ i + 3 < s.windows.length

/-- The block of the granule has yet to have its window. -/
def Unvisited (t : Target) (map : List KinfoVmentry) (s : System)
    (g : Granule) : Prop :=
  ∃ i kivp, map[i]? = some kivp ∧ InBlock t kivp g ∧ s.windows.length ≤ i + 3

/-- Each step of the target leaves alone the tags of the granules that `P`
picks out when it is taken. -/
def SparesTags (P : System → Granule → Prop) (s : System)
    (ticks : List Tick) : Prop :=
  ∀ done a rest u, ticks = done ++ .target a :: rest → s.run done = some u →
    ∀ g, P u g → a.apply u.tags g = u.tags g

/-- Up to some instant the target leaves alone the blocks that have had their
windows, and from then on those that have yet to have them. -/
def ScanRun.Pivots (r : ScanRun t map) : Prop :=
  ∃ done rest s, r.ticks = done ++ rest ∧
    (System.start r.initial).run done = some s ∧
    SparesTags (Visited t map) (System.start r.initial) done ∧
    SparesTags (Unvisited t map) s rest

theorem ScanRun.exists_window (r : ScanRun t map) {i : Nat}
    {kivp : KinfoVmentry} (hi : map[i]? = some kivp) :
    ∃ w, r.final.windows[i + 3]? = some w := by
  have hlength := windows_length r.run_eq
  rw [r.scan_eq, count_attach_scanMem r.vmmap r.completed] at hlength
  obtain ⟨hlt, _⟩ := List.getElem?_eq_some_iff.mp hi
  have hwindow : i + 3 < r.final.windows.length := by
    rw [hlength]
    exact Nat.lt_of_lt_of_le (Nat.add_lt_add_right hlt 3)
      (Nat.le_add_left _ _)
  exact ⟨_, List.getElem?_eq_getElem hwindow⟩

theorem captured_iff {m : Memory} {w : GranuleTags} {g : Granule}
    (hshows : m.Shows w) (hdecoded : m.DecodedAt g) :
    Captured m g.addr ↔ w g = true := by
  obtain ⟨tagsbuf, htags, hexact⟩ := hdecoded
  have hbit : bitOf g.addr ∈ capturedBits tagsbuf ↔ w g = true := by
    rw [hexact, mem_setBits, hshows g tagsbuf htags]
  constructor
  · rintro ⟨_, buf, hbuf, hmem⟩
    rw [htags, Option.some.injEq] at hbuf
    subst hbuf
    exact hbit.1 hmem
  · exact fun hw => ⟨g.aligned, tagsbuf, htags, hbit.2 hw⟩

/-- The recorded locations are the granules tagged in the windows of their
blocks. -/
theorem ScanRun.mem_recorded (hclean : t.Clean) (r : ScanRun t map)
    (text : Text) :
    text ∈ (dbScanned t Db.empty).capInfo.map CapInfo.capLocAddr ↔
      ∃ i kivp w g, map[i]? = some kivp ∧ r.final.windows[i + 3]? = some w ∧
        InBlock t kivp g ∧ w g = true ∧ text = hexText g.addr.toNat := by
  rw [(scanned_tables_consistent hclean r.vmmap r.map_ok r.completed).2,
    List.mem_map]
  simp only [mem_scanCaps r.map_ok]
  constructor
  · rintro ⟨a, ⟨i, kivp, hi, hcap, hin, hcaptured⟩, rfl⟩
    obtain ⟨w, hw⟩ := r.exists_window hi
    have hg : InBlock t kivp ⟨a, hcaptured.1⟩ := ⟨hcap, hin⟩
    exact ⟨i, kivp, w, ⟨a, hcaptured.1⟩, hi, hw, hg,
      (captured_iff (g := ⟨a, hcaptured.1⟩) (r.shown i w hw)
        (r.decoded i kivp _ hi hg)).1 hcaptured, rfl⟩
  · rintro ⟨i, kivp, w, g, hi, hw, hg, htag, rfl⟩
    exact ⟨g.addr, ⟨i, kivp, hi, hg.1, hg.2,
      (captured_iff (r.shown i w hw) (r.decoded i kivp g hi hg)).2 htag⟩, rfl⟩

theorem Granule.eq_of_hexText {g g' : Granule}
    (h : hexText g.addr.toNat = hexText g'.addr.toNat) : g = g' := by
  obtain ⟨addr, _⟩ := g
  obtain ⟨addr', _⟩ := g'
  cases hexText_eq_iff.1 h
  rfl

/-- A scan takes a snapshot exactly when some state of the run agrees with
every window. -/
theorem ScanRun.snapshotTaken_iff_agrees (hclean : t.Clean)
    (r : ScanRun t map) :
    r.SnapshotTaken ↔ ∃ s, r.Instant s ∧ r.Agrees s := by
  refine exists_congr fun s => and_congr_right fun _ => ?_
  simp only [r.mem_recorded hclean]
  constructor
  · intro h i kivp w g hi hw hg
    rw [Bool.eq_iff_iff]
    constructor
    · intro htag
      obtain ⟨g', _, _, _, htag', heq⟩ :=
        (h _).1 ⟨i, kivp, w, g, hi, hw, hg, htag, rfl⟩
      rwa [Granule.eq_of_hexText heq]
    · intro htag
      obtain ⟨k, e, v, g', hk, hv, hg', htag', heq⟩ :=
        (h _).2 ⟨g, kivp, List.mem_of_getElem? hi, hg, htag, rfl⟩
      cases Granule.eq_of_hexText heq
      cases r.map_ok.unique hi hk hg.2 hg'.2
      rw [hw, Option.some.injEq] at hv
      rwa [hv]
  · intro h text
    constructor
    · rintro ⟨i, kivp, w, g, hi, hw, hg, htag, rfl⟩
      exact ⟨g, kivp, List.mem_of_getElem? hi, hg,
        by rw [← h i kivp w g hi hw hg, htag], rfl⟩
    · rintro ⟨g, kivp, hkivp, hg, htag, rfl⟩
      obtain ⟨i, hi⟩ := List.mem_iff_getElem?.mp hkivp
      obtain ⟨w, hw⟩ := r.exists_window hi
      exact ⟨i, kivp, w, g, hi, hw, hg, by rw [h i kivp w g hi hw hg, htag],
        rfl⟩

/-! ### Steps that spare what has been seen -/

/-- One more window, on a memory that agrees on the blocks to come. -/
theorem WindowsAgree.attach {s s' : System} {tags : GranuleTags}
    (h : WindowsAgree t map s tags)
    (hwindows : s'.windows = s.windows ++ [s.tags])
    (hnext : ∀ g, Unvisited t map s g → s.tags g = tags g) :
    WindowsAgree t map s' tags := by
  intro i kivp w g hi hw hg
  rw [hwindows] at hw
  by_cases hold : i + 3 < s.windows.length
  · rw [List.getElem?_append_left hold] at hw
    exact h i kivp w g hi hw hg
  · rw [List.getElem?_append_right (Nat.le_of_not_lt hold)] at hw
    cases List.mem_singleton.mp (List.mem_of_getElem? hw)
    exact hnext g ⟨i, kivp, hi, hg, Nat.le_of_not_lt hold⟩

/-- As long as the target spares the blocks that have had their windows, the
windows agree with its memory. -/
theorem windowsAgree_of_sparesVisited {tags : GranuleTags}
    {ticks : List Tick} {s : System}
    (h : (System.start tags).run ticks = some s)
    (hspares : SparesTags (Visited t map) (System.start tags) ticks) :
    WindowsAgree t map s s.tags := by
  refine Steps.run_induction (P := fun u => WindowsAgree t map u u.tags) h
    ?_ ?_
  · intro i kivp w g _ hw
    cases hw
  · intro done tick rest u u' hticks hu hstep hagree
    rcases System.step_cases hstep with ⟨_, _, htags, hwindows⟩ |
      ⟨_, _, _, _, htags, hwindows⟩ | ⟨a, rfl, _, htags, hwindows⟩
    · rw [htags]
      exact hagree.attach hwindows fun _ _ => rfl
    · rw [WindowsAgree, htags, hwindows]
      exact hagree
    · intro i kivp w g hi hw hg
      rw [hwindows] at hw
      obtain ⟨hlt, _⟩ := List.getElem?_eq_some_iff.mp hw
      rw [htags, hspares done a rest u hticks hu g ⟨i, kivp, hi, hg, hlt⟩]
      exact hagree i kivp w g hi hw hg

/-- From an instant at which the windows agree with the memory, as long as
the target spares the blocks that have yet to have their windows, the windows
agree with the memory of that instant. -/
theorem windowsAgree_of_sparesUnvisited {s s' : System} {ticks : List Tick}
    (hstart : WindowsAgree t map s s.tags) (h : s.run ticks = some s')
    (hspares : SparesTags (Unvisited t map) s ticks) :
    WindowsAgree t map s' s.tags := by
  have hrun := Steps.run_induction (P := fun u =>
      WindowsAgree t map u s.tags ∧
        ∀ g, Unvisited t map u g → u.tags g = s.tags g) h
    ⟨hstart, fun _ _ => rfl⟩ ?_
  · exact hrun.1
  · rintro done tick rest u u' hticks hu hstep ⟨hagree, hnext⟩
    rcases System.step_cases hstep with ⟨_, _, htags, hwindows⟩ |
      ⟨_, _, _, _, htags, hwindows⟩ | ⟨a, rfl, _, htags, hwindows⟩
    · refine ⟨hagree.attach hwindows hnext, ?_⟩
      rintro g ⟨i, kivp, hi, hg, hle⟩
      rw [htags]
      rw [hwindows, List.length_append] at hle
      exact hnext g ⟨i, kivp, hi, hg, by omega⟩
    · refine ⟨?_, ?_⟩
      · rw [WindowsAgree, hwindows]
        exact hagree
      · rintro g ⟨i, kivp, hi, hg, hle⟩
        rw [htags]
        exact hnext g ⟨i, kivp, hi, hg, hwindows ▸ hle⟩
    · refine ⟨?_, ?_⟩
      · rw [WindowsAgree, hwindows]
        exact hagree
      · rintro g ⟨i, kivp, hi, hg, hle⟩
        have hg' : Unvisited t map u g := ⟨i, kivp, hi, hg, hwindows ▸ hle⟩
        rw [htags, hspares done a rest u hticks hu g hg']
        exact hnext g hg'

theorem ScanRun.exists_agrees_of_pivots {r : ScanRun t map}
    (h : r.Pivots) : ∃ s, r.Instant s ∧ r.Agrees s := by
  obtain ⟨done, rest, s, hticks, hs, hbefore, hafter⟩ := h
  refine ⟨s, ⟨done, rest, hticks, hs⟩, ?_⟩
  have hrest : s.run rest = some r.final := by
    have hrun := r.run_eq
    rw [hticks, System.run, Steps.run_append] at hrun
    obtain ⟨u, hu, hrun⟩ := Option.bind_eq_some_iff.mp hrun
    rw [System.run, hu, Option.some.injEq] at hs
    rwa [← hs]
  exact windowsAgree_of_sparesUnvisited
    (windowsAgree_of_sparesVisited hs hbefore) hrest hafter

/-- A target that takes no steps spares everything. -/
theorem ScanRun.pivots_of_still {r : ScanRun t map}
    (h : ∀ a, Tick.target a ∉ r.ticks) : r.Pivots := by
  refine ⟨[], r.ticks, System.start r.initial, rfl, rfl, ?_, ?_⟩
  · intro done a rest u hticks
    simp at hticks
  · intro done a rest u hticks
    exact absurd (by simp [hticks]) (h a)

/-- A scan records the memory of one instant in every run whose steps spare, up
to some instant, the blocks that have had their windows and, from then on,
those that have yet to have them. -/
theorem snapshotTaken_of_pivots (hclean : t.Clean) {r : ScanRun t map}
    (h : r.Pivots) : r.SnapshotTaken :=
  (r.snapshotTaken_iff_agrees hclean).2 (ScanRun.exists_agrees_of_pivots h)

end ScanRun

/-! ### A capability that changes blocks -/

/-- A single capability. -/
def onlyAt (x : Granule) : GranuleTags := fun g => g = x

/-- The bitmaps of a memory whose only capability starts the page at `a`. -/
def onePage (a : ULong) : Memory where
  tags p := some (.ofFirst (if p = a then 1 else 0))
  cap _ := ⟨true, ⟨0x40000, "rwRW".toList, 0x40000, 0x41000, none⟩⟩

theorem apply_move_onlyAt {x y : Granule} (hne : x ≠ y) :
    (TargetStep.move x y).apply (onlyAt x) = onlyAt y ∧
      (TargetStep.move x y).apply (onlyAt y) = onlyAt y := by
  constructor
  · funext g
    by_cases hy : g = y
    · simp [TargetStep.apply, onlyAt, hy]
    · by_cases hx : g = x <;> simp [TargetStep.apply, onlyAt, hx, hy, hne]
  · simp [TargetStep.apply, onlyAt, hne]

theorem setBits_ofFirst :
    setBits (.ofFirst 1) = [(0, 0)] ∧ setBits (.ofFirst 0) = [] := by
  decide +kernel

theorem onePage_shows {x : Granule} (h : PageAligned x.addr) :
    (onePage x.addr).Shows (onlyAt x) := by
  intro g tagsbuf htags
  have hfirst : g = x ↔ pageOf g.addr = x.addr ∧ bitOf g.addr = (0, 0) := by
    have haddr := bitAddress_eq_iff h g.addr (0, 0)
    have hzero : bitAddress x.addr (0, 0) = x.addr := by simp [bitAddress]
    rw [hzero] at haddr
    constructor
    · rintro rfl
      exact ⟨(haddr.1 rfl).1, (haddr.1 rfl).2.2⟩
    · rintro ⟨hpage, hbit⟩
      have hx := haddr.2 ⟨hpage, g.aligned, hbit⟩
      obtain ⟨addr, _⟩ := g
      obtain ⟨addr', _⟩ := x
      cases hx
      rfl
  rw [onePage, Option.some.injEq] at htags
  subst htags
  rw [Bool.eq_iff_iff, ← mem_setBits, onlyAt, decide_eq_true_iff, hfirst]
  by_cases hpage : pageOf g.addr = x.addr
  · rw [if_pos hpage, setBits_ofFirst.1, List.mem_singleton]
    exact (and_iff_right hpage).symm
  · rw [if_neg hpage, setBits_ofFirst.2]
    simp [hpage]

theorem onePage_decoded (a : ULong) (g : Granule) :
    (onePage a).DecodedAt g := by
  refine ⟨_, rfl, capturedBits_eq_setBits ?_⟩
  split <;> decide +kernel

/-- Whether the target is stopped after these actions. -/
def stoppedAfter (stopped : Bool) (events : List Event) : Bool :=
  events.foldl (fun b e =>
    match e with
    | .attach => true
    | .detach => false
    | _ => b) stopped

/-- Without steps of the target all windows show the same memory. -/
theorem run_scan (s : System) (events : List Event) :
    s.run (events.map .scan) =
      some
        { tags := s.tags
          attached := stoppedAfter s.attached events
          windows := s.windows ++
            List.replicate (events.count .attach) s.tags } := by
  induction events generalizing s with
  | nil => simp [System.run, Steps.run, stoppedAfter]
  | cons e es ih =>
      cases e with
      | attach =>
          change System.run ⟨s.tags, true, s.windows ++ [s.tags]⟩
            (es.map .scan) = _
          rw [ih]
          simp [stoppedAfter, List.replicate_succ]
      | detach =>
          change System.run ⟨s.tags, false, s.windows⟩ (es.map .scan) = _
          rw [ih]
          simp [stoppedAfter]
      | io a =>
          change System.run s (es.map .scan) = _
          rw [ih]
          simp [stoppedAfter]
      | exec q =>
          change System.run s (es.map .scan) = _
          rw [ih]
          simp [stoppedAfter]

def firstGranule : Granule := ⟨0x40000, by decide⟩

def secondGranule : Granule := ⟨0x41000, by decide⟩

/-- A scan of two blocks, the capability of the first staying where it is. -/
def stillRun : ScanRun
    (Target.sample adjacentBlocks fun _ => onePage firstGranule.addr)
    adjacentBlocks where
  initial := onlyAt firstGranule
  ticks := (scanMem (Target.sample adjacentBlocks fun _ =>
    onePage firstGranule.addr)).trace.map .scan
  final := _
  vmmap := rfl
  map_ok := adjacentBlocks_ok
  completed := scanMem_sample_ok adjacentBlocks _ (by decide)
  scan_eq := scanEvents_map_scan _
  run_eq := run_scan _ _
  shown i w hw := by
    have hmem := List.mem_of_getElem? hw
    rw [List.eq_of_mem_replicate hmem]
    exact onePage_shows (by decide)
  decoded _ _ g _ _ := onePage_decoded _ g

theorem onePage_clean (map : List KinfoVmentry)
    (hpaths : ∀ kivp ∈ map, SqlText.QuoteFree kivp.kvePath ∧
      SqlText.lower kivp.kvePath ∉ vmNames) (a : Nat → ULong) :
    (Target.sample map fun i => onePage (a i)).Clean :=
  sample_clean hpaths fun _ _ =>
    (by decide : SqlText.QuoteFree "rwRW".toList)

theorem still_run_snapshot : stillRun.SnapshotTaken := by
  refine snapshotTaken_of_pivots
    (onePage_clean adjacentBlocks (by decide) fun _ => _)
    (ScanRun.pivots_of_still ?_)
  intro a ha
  obtain ⟨e, _, he⟩ := List.mem_map.mp ha
  cases he

/-- Two blocks; a capability at `x` in the first window is at `y` in the
second. -/
def crossingTarget (x y : Granule) : Target :=
  Target.sample adjacentBlocks fun i => onePage (if i = 0 then x else y).addr

theorem hascap_sample {x y : Granule} (start stop : ULong) :
    hascap (crossingTarget x y) (.sample start stop) = true := by
  have hflags : (0x40000000 : CInt) &&& 0x40000000 ≠ 0 := by decide
  exact decide_eq_true hflags

/-- A capability moves between the windows of the two blocks. -/
structure Crossing where
  src : Granule
  dst : Granule
  /-- The number of actions before the move. -/
  gap : Nat
  ne : src ≠ dst
  src_page : PageAligned src.addr
  dst_page : PageAligned dst.addr
  before : ((scanMem (crossingTarget src dst)).trace.take gap).count
    .attach = 4
  detached : stoppedAfter false
    ((scanMem (crossingTarget src dst)).trace.take gap) = false
  after : ((scanMem (crossingTarget src dst)).trace.drop gap).count
    .attach = 1

namespace Crossing

variable (c : Crossing)

def trace : List Event := (scanMem (crossingTarget c.src c.dst)).trace

def ticks : List Tick :=
  (c.trace.take c.gap).map .scan ++
    .target (.move c.src c.dst) :: (c.trace.drop c.gap).map .scan

def final : System :=
  { tags := onlyAt c.dst
    attached := stoppedAfter false (c.trace.drop c.gap)
    windows := List.replicate 4 (onlyAt c.src) ++ [onlyAt c.dst] }

theorem scanEvents_ticks : scanEvents c.ticks = c.trace := by
  have hticks : scanEvents c.ticks =
      scanEvents ((c.trace.take c.gap).map .scan) ++
        scanEvents ((c.trace.drop c.gap).map .scan) := by
    simp [scanEvents, ticks]
  rw [hticks, scanEvents_map_scan, scanEvents_map_scan,
    List.take_append_drop]

theorem run_ticks :
    (System.start (onlyAt c.src)).run c.ticks = some c.final := by
  have hbefore := run_scan (System.start (onlyAt c.src)) (c.trace.take c.gap)
  have hafter := run_scan
    ⟨onlyAt c.dst, false, List.replicate 4 (onlyAt c.src)⟩
    (c.trace.drop c.gap)
  have hmove : System.step ⟨onlyAt c.src, false,
      List.replicate 4 (onlyAt c.src)⟩ (.target (.move c.src c.dst)) =
        some ⟨onlyAt c.dst, false, List.replicate 4 (onlyAt c.src)⟩ := by
    simp [System.step, (apply_move_onlyAt c.ne).1]
  rw [trace, c.after] at hafter
  rw [System.start, trace, c.before, c.detached] at hbefore
  rw [ticks, System.run, Steps.run_append, System.start, trace]
  exact Option.bind_eq_some_iff.mpr ⟨_, hbefore,
    Steps.run_cons_eq_some.mpr ⟨_, hmove, hafter⟩⟩

theorem final_window {i : Nat} {w : GranuleTags}
    (h : c.final.windows[i + 3]? = some w) :
    w = onlyAt (if i = 0 then c.src else c.dst) := by
  match i with
  | 0 => exact (Option.some.inj h).symm
  | 1 => exact (Option.some.inj h).symm
  | i + 2 => cases h

/-- The scan with the move in its gap. -/
def run : ScanRun (crossingTarget c.src c.dst) adjacentBlocks where
  initial := onlyAt c.src
  ticks := c.ticks
  final := c.final
  vmmap := rfl
  map_ok := adjacentBlocks_ok
  completed := scanMem_sample_ok adjacentBlocks _ (by decide)
  scan_eq := c.scanEvents_ticks
  run_eq := c.run_ticks
  shown i w hw := by
    rw [c.final_window hw]
    apply onePage_shows
    split
    · exact c.src_page
    · exact c.dst_page
  decoded _ _ g _ _ := onePage_decoded _ g

theorem clean : (crossingTarget c.src c.dst).Clean :=
  onePage_clean adjacentBlocks (by decide) _

/-- At each instant the capability is at one of the two places. -/
theorem tags_of_instant {s : System} (h : c.run.Instant s) :
    s.tags = onlyAt c.src ∨ s.tags = onlyAt c.dst := by
  obtain ⟨done, rest, hticks, hs⟩ := h
  refine Steps.run_induction (P := fun u =>
    u.tags = onlyAt c.src ∨ u.tags = onlyAt c.dst) hs (Or.inl rfl) ?_
  intro front tick back u u' hdone _ hstep htags
  rcases System.step_cases hstep with ⟨_, _, heq, _⟩ | ⟨_, _, _, _, heq, _⟩ |
    ⟨a, rfl, _, heq, _⟩
  · rwa [heq]
  · rwa [heq]
  · have hmem : Tick.target a ∈ c.ticks := by
      have hrun : c.ticks = done ++ rest := hticks
      rw [hrun, hdone]
      simp
    have ha : a = .move c.src c.dst := by
      simpa [ticks, -List.map_take, -List.map_drop] using hmem
    rw [heq, ha]
    rcases htags with hsrc | hdst
    · exact Or.inr (hsrc ▸ (apply_move_onlyAt c.ne).1)
    · exact Or.inr (hdst ▸ (apply_move_onlyAt c.ne).2)

/-- The window of the first block showed the first granule before the move,
that of the second block the second granule after it. -/
theorem tags_of_agrees {s : System} (h : c.run.Agrees s) :
    s.tags firstGranule = onlyAt c.src firstGranule ∧
      s.tags secondGranule = onlyAt c.dst secondGranule :=
  ⟨(h 0 _ _ firstGranule rfl rfl ⟨hascap_sample _ _, by decide⟩).symm,
    (h 1 _ _ secondGranule rfl rfl ⟨hascap_sample _ _, by decide⟩).symm⟩

/-- Two windows that show the capability twice, or not at all, are not of one
instant. -/
theorem not_snapshotTaken
    (hsame : onlyAt c.src firstGranule = onlyAt c.dst secondGranule)
    (hsrc : onlyAt c.src firstGranule ≠ onlyAt c.src secondGranule)
    (hdst : onlyAt c.dst firstGranule ≠ onlyAt c.dst secondGranule) :
    ¬ c.run.SnapshotTaken := by
  rw [ScanRun.snapshotTaken_iff_agrees c.clean]
  rintro ⟨s, hs, hagree⟩
  obtain ⟨hfirst, hsecond⟩ := c.tags_of_agrees hagree
  have heq : s.tags firstGranule = s.tags secondGranule := by
    rw [hfirst, hsecond, hsame]
  rcases c.tags_of_instant hs with htags | htags
  · rw [htags] at heq
    exact hsrc heq
  · rw [htags] at heq
    exact hdst heq

end Crossing

/-- From the block that has been scanned into the one that has not. -/
def forwards : Crossing where
  src := firstGranule
  dst := secondGranule
  gap := 17
  ne := by decide
  src_page := by decide
  dst_page := by decide
  before := by decide +kernel
  detached := by decide +kernel
  after := by decide +kernel

/-- The other way round. -/
def backwards : Crossing where
  src := secondGranule
  dst := firstGranule
  gap := 15
  ne := by decide
  src_page := by decide
  dst_page := by decide
  before := by decide +kernel
  detached := by decide +kernel
  after := by decide +kernel

/-- The only capability of the process is recorded twice, or not at all. -/
theorem moved_between_windows :
    (¬ forwards.run.SnapshotTaken ∧
      (dbScanned (crossingTarget firstGranule secondGranule)
        Db.empty).capInfo.map CapInfo.capLocAddr =
          [hexText 0x40000, hexText 0x41000]) ∧
    ¬ backwards.run.SnapshotTaken ∧
      (dbScanned (crossingTarget secondGranule firstGranule)
        Db.empty).capInfo = [] := by
  have hforwards := (sameRows_dbScanned forwards.clean Db.empty).capInfo
  have hbackwards := (sameRows_dbScanned backwards.clean Db.empty).capInfo
  refine ⟨⟨?_, ?_⟩, ?_, hbackwards.trans ?_⟩
  · exact forwards.not_snapshotTaken (by decide) (by decide) (by decide)
  · refine (congrArg (List.map CapInfo.capLocAddr) hforwards).trans ?_
    decide +kernel
  · exact backwards.not_snapshotTaken (by decide) (by decide) (by decide)
  · decide +kernel

end Chericat
