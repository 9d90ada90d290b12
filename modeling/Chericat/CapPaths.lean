import Chericat.CompartAttribution
import Chericat.ScanTexts

/-!
The path of a captured capability is that of a block: every row of `cap_info`
that a scan writes names a row of `vm`, wherever the pages of the blocks lie.
-/

namespace Chericat

/-- Capabilities are stored under this path only. -/
def Event.CapsUnder (path : Text) : Event → Prop
  | .exec s => ∀ cap ∈ s.capRows, cap.capLocPath = path
  | _ => True

theorem capsUnder_capRows {α : Type} {m : Scan α} {path : Text}
    (h : Run.Emits (Event.CapsUnder path) m) {cap : CapInfo}
    (hcap : cap ∈ (statements m.trace).flatMap Statement.capRows) :
    cap.capLocPath = path := by
  obtain ⟨s, hs, hcap⟩ := List.mem_flatMap.mp hcap
  exact h _ (mem_statements.mp hs) cap hcap

theorem capsUnder_getTags (t : Target) (m : Memory) (start : ULong)
    (path : Text) :
    Run.Emits (Event.CapsUnder path) (getTags t m start path) := by
  rw [getTags_eq]
  intro e he
  simp only [List.mem_append, List.mem_cons, List.mem_map] at he
  rcases he with (rfl | ⟨a, _, rfl⟩) | ⟨s, hs, rfl⟩
  · trivial
  · trivial
  · intro cap hcap
    have hmem := List.mem_flatMap.mpr ⟨s, hs, hcap⟩
    rw [capRows_captureStatements, List.mem_map] at hmem
    obtain ⟨a, _, rfl⟩ := hmem
    rfl

theorem capsUnder_pageLoop (t : Target) (m : Memory) (path : Text)
    (turns : Nat) (start stop : ULong) :
    Run.Emits (Event.CapsUnder path)
      (pageLoop t m path turns start stop) := by
  induction turns generalizing start with
  | zero =>
      rw [pageLoop]
      split
      · exact Run.emits_stop _
      · exact Run.emits_pure _
  | succ turns ih =>
      rw [pageLoop]
      split
      · exact (capsUnder_getTags t m start path).bind fun _ => ih _
      · exact Run.emits_pure _

theorem capsUnder_scanBlock (t : Target) (i : Nat) (kivp : KinfoVmentry)
    (path : Text) :
    Run.Emits (Event.CapsUnder path) (scanBlock t i kivp path) := by
  refine (Run.emits_emit trivial).bind fun _ => ?_
  refine Run.Emits.bind ?_ fun _ => Run.emits_emit trivial
  rw [scanPages]
  split
  · exact capsUnder_pageLoop t _ path _ _ _
  · exact Run.emits_pure _

/-- Each entry stores its capabilities under the path of its own row. -/
theorem loop_scanEntry_located {t : Target} {comparts : List CompartData}
    {entries : List (KinfoVmentry × Nat)} {st : ScanState}
    (h : (Run.loop (scanEntry t comparts) .start entries).outcome = .ok st) :
    ∀ cap ∈ (statements (Run.loop (scanEntry t comparts) .start
        entries).trace).flatMap Statement.capRows,
      ∃ v ∈ st.values, v.mmapPath = cap.capLocPath := by
  refine Run.loop_induction (P := fun _ tr st =>
    ∀ cap ∈ (statements tr).flatMap Statement.capRows,
      ∃ v ∈ st.values, v.mmapPath = cap.capLocPath) h nofun ?_
  intro done tr st entry st' hbefore hstep cap hcap
  obtain ⟨st₁, _, _, htrace, rfl⟩ := scanEntry_ok hstep
  have hnone : Spare .capInfo (statements (parseFile t st entry.1).trace) :=
    spare_statements (spares_of_writes (writes_parseFile t st entry.1) nofun)
  rw [htrace, statements_append, statements_append, List.flatMap_append,
    List.flatMap_append, hnone.capRows, List.nil_append, List.mem_append] at hcap
  rcases hcap with hcap | hcap
  · obtain ⟨v, hv, hpath⟩ := hbefore cap hcap
    exact ⟨v, List.mem_append_left _ hv, hpath⟩
  · exact ⟨_, List.mem_append_right _ (List.mem_singleton_self _),
      (capsUnder_capRows (capsUnder_scanBlock t _ _ _) hcap).symm⟩

theorem dbAfter_located {t : Target}
    (hscan : (scanMem t).outcome = .ok ⟨⟩) :
    ∀ cap ∈ (dbAfter t Db.empty).capInfo,
      ∃ v ∈ (dbAfter t Db.empty).vm, v.mmapPath = cap.capLocPath := by
  obtain ⟨map, hmap⟩ := exists_map_of_ok hscan
  obtain ⟨c⟩ := exists_completedScan hmap hscan
  intro cap hcap
  rw [c.dbAfter_eq hmap hscan] at hcap ⊢
  obtain ⟨v, hv, hpath⟩ := loop_scanEntry_located c.final_eq cap hcap
  refine ⟨_, List.mem_map_of_mem (List.mem_map_of_mem hv), ?_⟩
  rw [← hpath, toVmEntry_applyUpdates]
  rfl

/-- The path of every capability of a completed scan is that of a block. -/
theorem scan_located {t : Target} (hclean : t.Clean)
    (hscan : (scanMem t).outcome = .ok ⟨⟩) :
    ∀ cap ∈ (dbScanned t Db.empty).capInfo,
      ∃ v ∈ (dbScanned t Db.empty).vm, v.mmapPath = cap.capLocPath := by
  obtain ⟨_, hdb⟩ := exists_dbScanned hclean Db.empty
  rw [hdb]
  exact dbAfter_located hscan

end Chericat
