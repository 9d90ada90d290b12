import Chericat.SectionLabels

/-!
The entries whose files are parsed are the first ones of their paths.  An
anonymous block is given the path of one of them, looked up by its start
address.
-/

namespace Chericat

/-- A named entry whose path no entry before it has. -/
structure Leads (before : List KinfoVmentry) (s : KinfoVmentry) : Prop where
  named : s.kvePath ≠ []
  fresh : ∀ n ∈ before, n.kvePath ≠ s.kvePath

theorem leads_iff {before : List KinfoVmentry} {s : KinfoVmentry} :
    Leads before s ↔ s.kvePath ≠ [] ∧ ∀ n ∈ before, n.kvePath ≠ s.kvePath :=
  ⟨fun h => ⟨h.named, h.fresh⟩, fun h => ⟨h.1, h.2⟩⟩

instance (before : List KinfoVmentry) (s : KinfoVmentry) :
    Decidable (Leads before s) :=
  decidable_of_iff _ leads_iff.symm

/-- The paths seen are those of the map. -/
theorem any_seenEntries (map : List KinfoVmentry) {path : Text}
    (hpath : path ≠ []) :
    (seenEntries map).any (·.kvePath = path) = true ↔
      ∃ n ∈ map, n.kvePath = path := by
  induction map using List.reverseRecOn with
  | nil => simp [seenEntries]
  | append_singleton map k ih =>
      rw [seenEntries_concat, addSeen]
      by_cases hk : k.kvePath = []
      · simp [hk, ih, hpath.symm]
      · by_cases hseen : (seenEntries map).any (·.kvePath = k.kvePath) = true
        · rw [if_neg hk, if_pos hseen, ih]
          constructor
          · rintro ⟨n, hn, hsame⟩
            exact ⟨n, List.mem_append_left _ hn, hsame⟩
          · rintro ⟨n, hn, rfl⟩
            rcases List.mem_append.mp hn with hn | hn
            · exact ⟨n, hn, rfl⟩
            · cases List.mem_singleton.mp hn
              exact ih.mp hseen
        · simp [hk, hseen, ih, or_and_right, exists_or]

theorem seenEntries_of_leads {map : List KinfoVmentry} {k : KinfoVmentry}
    (h : Leads map k) : seenEntries (map ++ [k]) = seenEntries map ++ [k] := by
  have hnew : ¬ (seenEntries map).any (·.kvePath = k.kvePath) = true := by
    rw [any_seenEntries map h.named]
    rintro ⟨n, hn, hsame⟩
    exact h.fresh n hn hsame
  rw [seenEntries_concat, addSeen, if_neg h.named, if_neg hnew]

theorem seenEntries_of_not_leads {map : List KinfoVmentry} {k : KinfoVmentry}
    (h : ¬ Leads map k) : seenEntries (map ++ [k]) = seenEntries map := by
  rw [seenEntries_concat, addSeen]
  by_cases hk : k.kvePath = []
  · rw [if_pos hk]
  · have hseen : (seenEntries map).any (·.kvePath = k.kvePath) = true := by
      rw [any_seenEntries map hk]
      by_contra hfresh
      exact h ⟨hk, fun n hn hsame => hfresh ⟨n, hn, hsame⟩⟩
    rw [if_neg hk, if_pos hseen]

/-! ### Looking through the entries seen -/

/-- An element of a list that was extended stands at its end or before. -/
theorem concat_eq_split {α : Type} {as b a : List α} {k s : α} :
    as ++ [k] = b ++ s :: a ↔
      (as = b ∧ k = s ∧ a = []) ∨ ∃ a', as = b ++ s :: a' ∧ a = a' ++ [k] := by
  rcases List.eq_nil_or_concat a with rfl | ⟨a', x, rfl⟩
  · simp
  · rw [List.concat_eq_append, ← List.cons_append, ← List.append_assoc,
      List.append_singleton_inj]
    constructor
    · rintro ⟨rfl, rfl⟩
      exact Or.inr ⟨a', rfl, rfl⟩
    · rintro (⟨_, _, h⟩ | ⟨a'', rfl, h⟩)
      · simp at h
      · rw [List.append_singleton_inj] at h
        rw [h.1, h.2]
        exact ⟨rfl, rfl⟩

/-- The first entry seen that satisfies `p`. -/
theorem find_seenEntries {p : KinfoVmentry → Bool} {map : List KinfoVmentry}
    {s : KinfoVmentry} :
    (seenEntries map).find? p = some s ↔ ∃ b a, map = b ++ s :: a ∧
      Leads b s ∧ p s = true ∧ (seenEntries b).find? p = none := by
  induction map using List.reverseRecOn with
  | nil => simp [seenEntries]
  | append_singleton map k ih =>
      simp only [concat_eq_split]
      by_cases hk : Leads map k
      · rw [seenEntries_of_leads hk, List.find?_append, Option.or_eq_some_iff,
          ih]
        constructor
        · rintro (⟨b, a, rfl, hs⟩ | ⟨hnone, hlast⟩)
          · exact ⟨b, a ++ [k], Or.inr ⟨a, rfl, rfl⟩, hs⟩
          · have hmem := List.mem_of_find?_eq_some hlast
            cases List.mem_singleton.mp hmem
            exact ⟨map, [], Or.inl ⟨rfl, rfl, rfl⟩, hk,
              List.find?_some hlast, hnone⟩
        · rintro ⟨b, a, ⟨rfl, rfl, rfl⟩ | ⟨a, rfl, rfl⟩, hs⟩
          · exact Or.inr ⟨hs.2.2, by simp [hs.2.1]⟩
          · exact Or.inl ⟨b, a, rfl, hs⟩
      · rw [seenEntries_of_not_leads hk, ih]
        constructor
        · rintro ⟨b, a, rfl, hs⟩
          exact ⟨b, a ++ [k], Or.inr ⟨a, rfl, rfl⟩, hs⟩
        · rintro ⟨b, a, ⟨rfl, rfl, rfl⟩ | ⟨a, rfl, rfl⟩, hs⟩
          · exact absurd hs.1 hk
          · exact ⟨b, a, rfl, hs⟩

theorem find_seenEntries_eq_none {p : KinfoVmentry → Bool}
    {map : List KinfoVmentry} :
    (seenEntries map).find? p = none ↔ ∀ b s a, map = b ++ s :: a →
      Leads b s → p s = false := by
  induction map using List.reverseRecOn with
  | nil => simp [seenEntries]
  | append_singleton map k ih =>
      simp only [concat_eq_split]
      by_cases hk : Leads map k
      · rw [seenEntries_of_leads hk, List.find?_append, Option.or_eq_none_iff,
          ih]
        constructor
        · rintro ⟨hmap, hlast⟩ b s a (⟨rfl, rfl, rfl⟩ | ⟨a, rfl, rfl⟩) hs
          · simpa using hlast
          · exact hmap b s a rfl hs
        · intro h
          refine ⟨fun b s a hsplit => h b s _ (Or.inr ⟨a, hsplit, rfl⟩), ?_⟩
          simpa using h map k [] (Or.inl ⟨rfl, rfl, rfl⟩) hk
      · rw [seenEntries_of_not_leads hk, ih]
        constructor
        · rintro hmap b s a (⟨rfl, rfl, rfl⟩ | ⟨a, rfl, rfl⟩) hs
          · exact absurd hs hk
          · exact hmap b s a rfl hs
        · intro h b s a hsplit
          exact h b s _ (Or.inr ⟨a, hsplit, rfl⟩)

/-! ### Names of anonymous blocks -/

/-- The words for blocks that belong to no library. -/
def regionWords : List Text :=
  ["Guard".toList, "Stack".toList, "Heap(others)".toList]

/-- The name is the path of an earlier entry of the same reservation, and no
word for a block of no library. -/
structure NamesLibrary (before : List KinfoVmentry) (kivp : KinfoVmentry)
    (name : Text) : Prop where
  library : ∃ n ∈ before, n.kvePath ≠ [] ∧
    n.kveReservation = kivp.kveReservation ∧ n.kvePath = name
  notWord : name ∉ regionWords

/-- The entry `s` is the first entry of its path, and the first such entry to
start where the reservation of the block does; a mapping of its file lies in
this reservation. -/
structure LeadsReservation (before : List KinfoVmentry) (kivp s : KinfoVmentry) :
    Prop where
  leads : ∃ b a, before = b ++ s :: a ∧ Leads b s ∧
    ∀ b' s' a', b = b' ++ s' :: a' → Leads b' s' →
      s'.kveStart ≠ kivp.kveReservation
  start : s.kveStart = kivp.kveReservation
  mapped : ∃ n ∈ before, n.kveReservation = kivp.kveReservation ∧
    n.kvePath = s.kvePath
  notWord : s.kvePath ∉ regionWords

theorem libraryPath_mem_regionWords {t : Target} {seen : List KinfoVmentry}
    {kivp : KinfoVmentry} (hanon : kivp.kvePath = [])
    (h : seen.find? (·.kveStart = kivp.kveReservation) = none) :
    libraryPath t seen kivp ∈ regionWords := by
  rw [libraryPath, if_pos hanon, h]
  dsimp only
  split
  · simp [regionWords]
  · split <;> simp [regionWords]

/-- An anonymous block is named after a library of its reservation exactly when
some file's first mapping starts at the beginning of the reservation, no file
mapped before it does, and the file is mapped in the reservation. -/
theorem anonymousName_iff {t : Target} {comparts : List CompartData}
    {before : List KinfoVmentry} {st : ScanState}
    (h : (Run.loop (scanEntry t comparts) .start before.zipIdx).outcome =
      .ok st) {kivp : KinfoVmentry} (hanon : kivp.kvePath = []) :
    NamesLibrary before kivp (libraryPath t st.seen kivp) ↔
      ∃ s, LeadsReservation before kivp s := by
  have hseen := (loop_filesParsed h).2
  rw [List.zipIdx_map_fst] at hseen
  rw [hseen]
  rcases hfind : (seenEntries before).find? (·.kveStart = kivp.kveReservation)
    with - | s
  · constructor
    · intro hname
      exact absurd (libraryPath_mem_regionWords hanon hfind) hname.notWord
    · rintro ⟨s, ⟨b, a, hsplit, hleads, _⟩, hstart, _, _⟩
      have hother := find_seenEntries_eq_none.mp hfind b s a hsplit hleads
      exact absurd hstart (of_decide_eq_false hother)
  · have hname : libraryPath t (seenEntries before) kivp = s.kvePath := by
      rw [libraryPath, if_pos hanon, hfind]
    obtain ⟨b, a, hsplit, hleads, hstart, hnone⟩ := find_seenEntries.mp hfind
    have hearlier (b' : List KinfoVmentry) (s' : KinfoVmentry)
        (a' : List KinfoVmentry) (hb : b = b' ++ s' :: a')
        (hs' : Leads b' s') : s'.kveStart ≠ kivp.kveReservation :=
      of_decide_eq_false (find_seenEntries_eq_none.mp hnone b' s' a' hb hs')
    rw [hname]
    constructor
    · rintro ⟨⟨n, hn, _, hreservation, hpath⟩, hword⟩
      exact ⟨s, ⟨b, a, hsplit, hleads, hearlier⟩, of_decide_eq_true hstart,
        ⟨n, hn, hreservation, hpath⟩, hword⟩
    · rintro ⟨s', ⟨b', a', hsplit', hleads', hearlier'⟩, hstart',
        ⟨n, hn, hreservation, hpath⟩, hword⟩
      have hfind' : (seenEntries before).find?
          (·.kveStart = kivp.kveReservation) = some s' := by
        refine find_seenEntries.mpr ⟨b', a', hsplit', hleads',
          decide_eq_true hstart', find_seenEntries_eq_none.mpr ?_⟩
        intro b'' s'' a'' hb hs''
        exact decide_eq_false (hearlier' b'' s'' a'' hb hs'')
      cases hfind.symm.trans hfind'
      exact ⟨⟨n, hn, hpath ▸ hleads.named, hreservation, hpath⟩, hword⟩

/-- An anonymous block in the reservation at the given address. -/
def anonymousIn (reservation start stop : ULong) : KinfoVmentry :=
  { KinfoVmentry.sample start stop with
    kveReservation := reservation
    kveFlags := 0 }

/-- A library has an entry in the reservation of the block, and the block is
named as if there were none. -/
def LosesLibrary (before : List KinfoVmentry) (kivp : KinfoVmentry) : Prop :=
  (∃ n ∈ before, n.kvePath ≠ [] ∧ n.kveReservation = kivp.kveReservation) ∧
    ∃ st, (Run.loop (scanEntry twoLibraries []) .start
        before.zipIdx).outcome = .ok st ∧
      libraryPath twoLibraries st.seen kivp = "Heap(others)".toList ∧
      ¬ NamesLibrary before kivp (libraryPath twoLibraries st.seen kivp)

/-- Two ways to lose a library: its first entry does not start at the beginning
of the reservation, or its file was mapped elsewhere before. -/
theorem anonymous_name_lost :
    LosesLibrary
        [{ blockOf libA 0x61000 0x62000 with kveReservation := 0x60000 }]
        (anonymousIn 0x60000 0x62000 0x63000) ∧
      LosesLibrary [headA, blockOf libA 0x60000 0x61000]
        (anonymousIn 0x60000 0x62000 0x63000) := by
  refine ⟨⟨by decide, _, rfl, rfl, fun h => h.notWord ?_⟩,
    ⟨by decide, _, rfl, rfl, fun h => h.notWord ?_⟩⟩
  · decide
  · decide

/-- Behind the first mapping of a library, at whose start the reservation
begins, the library is found. -/
theorem anonymous_name_found :
    ∃ st, (Run.loop (scanEntry twoLibraries []) .start
        [headA].zipIdx).outcome = .ok st ∧
      NamesLibrary [headA] (anonymousIn 0x40000 0x41000 0x42000)
        (libraryPath twoLibraries st.seen
          (anonymousIn 0x40000 0x41000 0x42000)) := by
  refine ⟨_, rfl, (anonymousName_iff rfl rfl).mpr ⟨headA, ?_⟩⟩
  refine ⟨⟨[], [], rfl, by decide, ?_⟩, rfl,
    ⟨headA, List.mem_cons_self, rfl, rfl⟩, by decide⟩
  intro b' s' a' hsplit
  simp at hsplit

end Chericat
