import IndexedDisk.Proofs.Creating

/-!
# What making a volume does

The sector map is made of the lowest sectors after the two headers, and the root directory of the
lowest ones after that. The headers and the index blocks are written first, then the map and a
blank directory (`yields_format`). The tree that comes of it has no files and is well formed
(`consistent_after`).
-/

open IndexedDisk.Tree IndexedDisk.OpenFile

namespace IndexedDisk

theorem wide_mapSector : Word.wide mapSector = 0 := by decide

theorem wide_rootSector : Word.wide rootSector = 1 := by decide

namespace Formatting

variable (m : Medium) (count : Nat)

/-- The sector map once the two headers have their sectors. -/
def start : SectorMap := (SectorMap.empty count).setAll [0, 1] true

/-- The free sectors once the two headers have their sectors. -/
def free : List Nat := (start count).free

/-- The number of sectors of the map. -/
def mapUsed : Nat :=
  sectorsFor (SectorMap.imageSize count) + indexBlocksFor (sectorsFor (SectorMap.imageSize count))

/-- The free sectors once the map has its sectors. -/
def rest : List Nat := (free count).drop (mapUsed count)

/-- The number of sectors of the root directory. -/
def rootUsed : Nat := sectorsFor directoryFileSize + indexBlocksFor (sectorsFor directoryFileSize)

/-- The header of the map. -/
def mapHeader : Header := .planned (SectorMap.imageSize count) (free count)

/-- The header of the root directory. -/
def rootHeader : Header := .planned directoryFileSize (rest count)

/-- The sector map of the new volume. -/
def map : SectorMap :=
  ((start count).setAll ((free count).take (mapUsed count)) true).setAll
    ((rest count).take rootUsed) true

/-- The sectors of the map but for its header. -/
def mapSectors : List Nat :=
  Header.plannedData (sectorsFor (SectorMap.imageSize count)) (free count)
    ++ Header.plannedIndex (sectorsFor (SectorMap.imageSize count)) (free count)

/-- The sectors of the root directory but for its header. -/
def rootSectors : List Nat :=
  Header.plannedData (sectorsFor directoryFileSize) (rest count)
    ++ Header.plannedIndex (sectorsFor directoryFileSize) (rest count)

/-- The index blocks and the headers are written. -/
def headerScript : Script :=
  Header.fillScript (sectorsFor (SectorMap.imageSize count)) (free count)
    ++ (Header.fillScript (sectorsFor directoryFileSize) (rest count)
    ++ [.write 0 (mapHeader count).toSector, .write 1 (rootHeader count).toSector])

/-- The medium once it has the headers. -/
def headed : Medium := (headerScript count).medium m

/-- The sector map is written. -/
def mapScript : Script := (mapHeader count).writeScript (headed m count) 0 (map count).image

/-- The root directory is written. -/
def rootScript : Script :=
  (rootHeader count).writeScript (headed m count) 0 (Directory.empty directorySlots).image

/-- The medium with the new volume. -/
def after : Medium := (rootScript m count).medium ((mapScript m count).medium (headed m count))

/-- The steps after the headers are written. -/
def files (map : SectorMap) : DiskM Volume := do
  let volume ← Volume.openFiles
  map.store volume.mapFile
  (Directory.empty directorySlots).store volume.rootFile
  Disk.sync
  return volume

/-- The disk has room for a volume. -/
structure Valid : Prop where
  two_le : 2 ≤ count
  map_fits : Header.Fits (SectorMap.imageSize count) (free count)
  root_fits : Header.Fits directoryFileSize (rest count)

/-- Why a disk that has no room takes no volume. -/
def cause : Failure :=
  if count < 2 then .refused .noSpace
  else if SectorMap.maxSize < count then .broken .arithmetic
  else if maxFileSize < SectorMap.imageSize count then
    .refused (.fileTooLarge (SectorMap.imageSize count))
  else .refused .noSpace

variable {m count}

theorem mem_free {i : Nat} (h : 2 ≤ count) : i ∈ free count ↔ 2 ≤ i ∧ i < count := by
  have hone : ∀ i ∈ [0, 1], i < (SectorMap.empty count).size := by
    intro i hi
    simp only [List.mem_cons, List.not_mem_nil, or_false] at hi
    rw [SectorMap.size_empty]
    omega
  have hsize : (start count).size = count := SectorMap.size_setAll ..
  rw [free, SectorMap.mem_free, hsize, start, SectorMap.bit_setAll hone, SectorMap.bit_empty]
  simp only [List.mem_cons, List.not_mem_nil, or_false]
  by_cases hi : i = 0 ∨ i = 1
  · rw [if_pos hi]
    simp only [Bool.true_eq_false, and_false, false_iff]
    omega
  · rw [if_neg hi]
    simp only [and_true]
    omega

variable (hv : Valid count)
include hv

theorem perm_mapSectors : (mapSectors count).Perm ((free count).take (mapUsed count)) :=
  hv.map_fits.perm_planned

theorem perm_rootSectors : (rootSectors count).Perm ((rest count).take rootUsed) :=
  hv.root_fits.perm_planned

theorem mem_free_of_mapSectors {i : Nat} (hi : i ∈ mapSectors count) : i ∈ free count :=
  List.mem_of_mem_take ((perm_mapSectors hv).mem_iff.mp hi)

theorem mem_free_of_rootSectors {i : Nat} (hi : i ∈ rootSectors count) : i ∈ free count :=
  List.mem_of_mem_drop (List.mem_of_mem_take ((perm_rootSectors hv).mem_iff.mp hi))

theorem nodup_sectors : (0 :: 1 :: (mapSectors count ++ rootSectors count)).Nodup := by
  have hfree : (free count).Nodup := SectorMap.nodup_free _
  have hnot (i : Nat) (hi : i < 2) : i ∉ mapSectors count ++ rootSectors count := by
    intro hmem
    have hmem : i ∈ free count := (List.mem_append.mp hmem).elim (mem_free_of_mapSectors hv)
      (mem_free_of_rootSectors hv)
    have := (mem_free hv.two_le).mp hmem
    omega
  have hdisjoint : ∀ i ∈ mapSectors count, i ∉ rootSectors count := by
    intro i hi hi'
    have hsplit := List.take_append_drop (mapUsed count) (free count)
    rw [← hsplit] at hfree
    exact (List.nodup_append.mp hfree).2.2 i ((perm_mapSectors hv).mem_iff.mp hi) i
      (List.mem_of_mem_take ((perm_rootSectors hv).mem_iff.mp hi')) rfl
  refine List.nodup_cons.mpr ⟨?_, List.nodup_cons.mpr ⟨hnot 1 (by decide), ?_⟩⟩
  · intro h
    rcases List.mem_cons.mp h with h | h
    · cases h
    · exact hnot 0 (by decide) h
  · refine List.nodup_append.mpr ⟨hv.map_fits.nodup_planned, hv.root_fits.nodup_planned, ?_⟩
    rintro i hi _ hi' rfl
    exact hdisjoint i hi hi'

theorem targets_headerScript : (headerScript count).targets.Perm
    (0 :: 1 :: (Header.plannedIndex (sectorsFor (SectorMap.imageSize count)) (free count)
      ++ Header.plannedIndex (sectorsFor directoryFileSize) (rest count))) := by
  rw [headerScript, Script.targets_append, Script.targets_append]
  have hperm := hv.map_fits.targets_fillScript.append
    (hv.root_fits.targets_fillScript.append (List.Perm.refl [0, 1]))
  refine hperm.trans ?_
  rw [← List.append_assoc]
  exact List.perm_append_comm

theorem nodup_targets : (headerScript count).targets.Nodup := by
  refine (targets_headerScript hv).nodup_iff.mpr ?_
  refine (nodup_sectors hv).sublist (List.Sublist.cons_cons _ (List.Sublist.cons_cons _ ?_))
  exact (List.sublist_append_right ..).append (List.sublist_append_right ..)

theorem facts_of_held {m' : Medium} (hm : (headerScript count).Held m') :
    (Header.stored m' (Word.wide mapSector) = mapHeader count ∧ (mapHeader count).Intact m'
      ∧ (mapHeader count).Separate m'
      ∧ (mapHeader count).data m'
        = Header.plannedData (sectorsFor (SectorMap.imageSize count)) (free count)
      ∧ (mapHeader count).index m'
        = Header.plannedIndex (sectorsFor (SectorMap.imageSize count)) (free count))
    ∧ Header.stored m' (Word.wide rootSector) = rootHeader count ∧ (rootHeader count).Intact m'
      ∧ (rootHeader count).Separate m'
      ∧ (rootHeader count).data m'
        = Header.plannedData (sectorsFor directoryFileSize) (rest count)
      ∧ (rootHeader count).index m'
        = Header.plannedIndex (sectorsFor directoryFileSize) (rest count) := by
  obtain ⟨hmap, hm⟩ := Script.held_append.mp hm
  obtain ⟨hroot, hheaders⟩ := Script.held_append.mp hm
  refine ⟨⟨?_, hv.map_fits.intact_planned hmap, hv.map_fits.separate_planned hmap,
    hv.map_fits.data_planned hmap, hv.map_fits.index_planned hmap⟩, ?_,
    hv.root_fits.intact_planned hroot, hv.root_fits.separate_planned hroot,
    hv.root_fits.data_planned hroot, hv.root_fits.index_planned hroot⟩
  · rw [Header.stored, wide_mapSector, hheaders 0 (mapHeader count).toSector (by simp),
      Header.ofSector_toSector]
  · rw [Header.stored, wide_rootSector, hheaders 1 (rootHeader count).toSector (by simp),
      Header.ofSector_toSector]

theorem held_headed : (headerScript count).Held (headed m count) :=
  Script.held_medium (nodup_targets hv) m

/-! ## What is written to the two files -/

theorem get_mapped {i : Nat} (m' : Medium)
    (hi : i ∉ Header.plannedData (sectorsFor (SectorMap.imageSize count)) (free count)) :
    ((mapScript m count).medium m').get i = m'.get i := by
  obtain ⟨⟨-, hintact, -, hdata, -⟩, -⟩ := facts_of_held hv (held_headed (m := m) hv)
  refine Script.get_medium_of_not_mem (fun h => hi ?_) m'
  rw [← hdata]
  exact Header.targets_writeScript_subset 0 _ hintact h

theorem get_rooted {i : Nat} (m' : Medium)
    (hi : i ∉ Header.plannedData (sectorsFor directoryFileSize) (rest count)) :
    ((rootScript m count).medium m').get i = m'.get i := by
  obtain ⟨-, -, hintact, -, hdata, -⟩ := facts_of_held hv (held_headed (m := m) hv)
  refine Script.get_medium_of_not_mem (fun h => hi ?_) m'
  rw [← hdata]
  exact Header.targets_writeScript_subset 0 _ hintact h

theorem disjoint_sectors {i : Nat} (hi : i ∈ mapSectors count) : i ∉ rootSectors count := by
  have hnodup := (List.nodup_cons.mp (List.nodup_cons.mp (nodup_sectors hv)).2).2
  exact fun hi' => (List.nodup_append.mp hnodup).2.2 i hi i hi' rfl

theorem held_after : (headerScript count).Held (after m count) := by
  refine (held_headed (m := m) hv).congr fun i hi => ?_
  have hnodup := nodup_sectors hv
  have hi := (targets_headerScript hv).mem_iff.mp hi
  have hmap : i ∉ Header.plannedData (sectorsFor (SectorMap.imageSize count)) (free count) := by
    intro hd
    have hd' : i ∈ mapSectors count := List.mem_append_left _ hd
    simp only [List.mem_cons, List.mem_append] at hi
    rcases hi with rfl | rfl | hi | hi
    · exact (List.nodup_cons.mp hnodup).1
        (List.mem_cons_of_mem _ (List.mem_append_left _ hd'))
    · exact (List.nodup_cons.mp (List.nodup_cons.mp hnodup).2).1 (List.mem_append_left _ hd')
    · exact (List.nodup_append.mp hv.map_fits.nodup_planned).2.2 i hd i hi rfl
    · exact disjoint_sectors hv hd' (List.mem_append_right _ hi)
  have hroot : i ∉ Header.plannedData (sectorsFor directoryFileSize) (rest count) := by
    intro hd
    have hd' : i ∈ rootSectors count := List.mem_append_left _ hd
    simp only [List.mem_cons, List.mem_append] at hi
    rcases hi with rfl | rfl | hi | hi
    · exact (List.nodup_cons.mp hnodup).1
        (List.mem_cons_of_mem _ (List.mem_append_right _ hd'))
    · exact (List.nodup_cons.mp (List.nodup_cons.mp hnodup).2).1 (List.mem_append_right _ hd')
    · exact disjoint_sectors hv (List.mem_append_right _ hi) hd'
    · exact (List.nodup_append.mp hv.root_fits.nodup_planned).2.2 i hd i hi rfl
  rw [after, get_rooted hv _ hroot, get_mapped hv _ hmap]

omit hv in
@[simp] theorem size_map : (map count).size = count := by
  rw [map, SectorMap.size_setAll, SectorMap.size_setAll, start, SectorMap.size_setAll,
    SectorMap.size_empty]

omit hv in
theorem size_blank : (Directory.empty directorySlots).size = directorySlots := by
  simp [Directory.empty, Directory.size]

theorem bitmap_after : bitmap (after m count) count = map count := by
  obtain ⟨⟨hstored, hintact, hseparate, hdata, hindex⟩, -⟩ :=
    facts_of_held hv (held_headed (m := m) hv)
  have hlength : (mapHeader count).length = SectorMap.imageSize (map count).size := by
    rw [mapHeader, hv.map_fits.length_planned, size_map]
  have hheld := SectorMap.held_store (map count) hintact hseparate (Nat.le_of_eq hlength.symm)
    (fun _ _ => rfl) fun _ _ => rfl
  rw [size_map] at hheld
  have hkeep : ∀ i ∈ mapSectors count, (after m count).get i
      = ((mapScript m count).medium (headed m count)).get i := fun i hi =>
    get_rooted hv _ fun hd => disjoint_sectors hv hi (List.mem_append_left _ hd)
  have hmapped : ∀ i ∈ (mapHeader count).index (headed m count),
      ((mapScript m count).medium (headed m count)).get i = (headed m count).get i := fun i hi =>
    Header.index_writeScript 0 _ hintact hseparate hi
  rw [bitmap, (facts_of_held hv (held_after hv)).1.1, SectorMap.held,
    Header.contents_congr (Header.Intact.congr hmapped hintact) (fun i hi => hkeep i ?_)
      (fun i hi => hkeep i ?_)]
  · exact hheld
  · rw [Header.index_congr hmapped, hindex] at hi
    exact List.mem_append_right _ hi
  · rw [Header.data_congr hmapped, hdata] at hi
    exact List.mem_append_left _ hi

theorem table_after :
    table (after m count) (Word.wide rootSector) = Directory.empty directorySlots := by
  obtain ⟨-, hstored, hintact, hseparate, hdata, hindex⟩ :=
    facts_of_held hv (held_headed (m := m) hv)
  have hlength : (rootHeader count).length
      = Directory.fileSize (Directory.empty directorySlots).size := by
    rw [rootHeader, hv.root_fits.length_planned, size_blank]
    rfl
  have hkeep : ∀ i ∈ rootSectors count, ((mapScript m count).medium (headed m count)).get i
      = (headed m count).get i := fun i hi =>
    get_mapped hv _ fun hd => disjoint_sectors hv (List.mem_append_left _ hd) hi
  have hheld := Directory.held_store (Directory.empty directorySlots) hintact hseparate
    (Nat.le_of_eq hlength.symm)
    (fun i hi => hkeep i (List.mem_append_right _ (hindex ▸ hi)))
    fun i hi => hkeep i (List.mem_append_left _ (hdata ▸ hi))
  rw [size_blank] at hheld
  rw [table, (facts_of_held hv (held_after hv)).2.1]
  exact hheld

/-! ## The tree without files -/

theorem slot?_after (i : Nat) : slot? (after m count) (Word.wide rootSector) i = none := by
  rw [slot?, table_after hv, Directory.empty]
  simp only [Array.getElem?_replicate]
  split <;> rfl

theorem reached_after {d : Nat} : Reached (after m count) d ↔ d = Word.wide rootSector := by
  constructor
  · intro hd
    induction hd with
    | root => rfl
    | child _ hi _ ih =>
      rw [ih, slot?_after hv] at hi
      cases hi
  · rintro rfl
    exact .root

theorem names_after {o : Owner} {s : Nat} : Names (after m count) o s ↔
    (o = .map ∧ s = Word.wide mapSector) ∨ (o = .root ∧ s = Word.wide rootSector) := by
  constructor
  · intro hs
    cases hs with
    | map => exact Or.inl ⟨rfl, rfl⟩
    | root => exact Or.inr ⟨rfl, rfl⟩
    | entry hd hi =>
      rw [(reached_after hv).mp hd, slot?_after hv] at hi
      cases hi
  · rintro (⟨rfl, rfl⟩ | ⟨rfl, rfl⟩)
    · exact .map
    · exact .root

theorem exists_sector?_map {i : Nat} :
    (∃ r : Role, r.sector? (after m count) (Word.wide mapSector) = some i)
      ↔ i ∈ 0 :: mapSectors count := by
  obtain ⟨⟨hstored, -, -, hdata, hindex⟩, -⟩ := facts_of_held hv (held_after (m := m) hv)
  rw [Role.exists_sector?_iff, hstored, hdata, hindex, wide_mapSector, mapSectors]

theorem exists_sector?_root {i : Nat} :
    (∃ r : Role, r.sector? (after m count) (Word.wide rootSector) = some i)
      ↔ i ∈ 1 :: rootSectors count := by
  obtain ⟨-, hstored, -, -, hdata, hindex⟩ := facts_of_held hv (held_after (m := m) hv)
  rw [Role.exists_sector?_iff, hstored, hdata, hindex, wide_rootSector, rootSectors]

theorem owns_after {o : Owner} {r : Role} {i : Nat} : Owns (after m count) o r i ↔
    (o = .map ∧ r.sector? (after m count) (Word.wide mapSector) = some i) ∨
      (o = .root ∧ r.sector? (after m count) (Word.wide rootSector) = some i) := by
  constructor
  · rintro ⟨s, hs, hr⟩
    rcases (names_after hv).mp hs with ⟨rfl, rfl⟩ | ⟨rfl, rfl⟩
    · exact Or.inl ⟨rfl, hr⟩
    · exact Or.inr ⟨rfl, hr⟩
  · rintro (⟨rfl, hr⟩ | ⟨rfl, hr⟩)
    · exact ⟨_, .map, hr⟩
    · exact ⟨_, .root, hr⟩

theorem unique_after {o o' : Owner} {r r' : Role} {i : Nat} (h : Owns (after m count) o r i)
    (h' : Owns (after m count) o' r' i) : o = o' ∧ r = r' := by
  obtain ⟨⟨hmap, -, -, hmapData, hmapIndex⟩, hroot, -, -, hrootData, hrootIndex⟩ :=
    facts_of_held hv (held_after (m := m) hv)
  have hnodup := nodup_sectors hv
  have hmapNodup : (0 :: mapSectors count).Nodup :=
    hnodup.sublist (List.Sublist.cons_cons _
      (List.Sublist.cons _ (List.sublist_append_left ..)))
  have hrootNodup : (1 :: rootSectors count).Nodup :=
    (List.nodup_cons.mp hnodup).2.sublist (List.Sublist.cons_cons _ (List.sublist_append_right ..))
  have hdisjoint {r r' : Role} (hr : r.sector? (after m count) (Word.wide mapSector) = some i)
      (hr' : r'.sector? (after m count) (Word.wide rootSector) = some i) : False := by
    have hi := (exists_sector?_map hv).mp ⟨r, hr⟩
    have hi' := (exists_sector?_root hv).mp ⟨r', hr'⟩
    have hperm : (0 :: 1 :: (mapSectors count ++ rootSectors count)).Perm
        ((0 :: mapSectors count) ++ (1 :: rootSectors count)) :=
      List.Perm.cons 0 List.perm_middle.symm
    exact (List.nodup_append.mp (hperm.nodup_iff.mp hnodup)).2.2 i hi i hi' rfl
  rcases (owns_after hv).mp h with ⟨rfl, hr⟩ | ⟨rfl, hr⟩
  · rcases (owns_after hv).mp h' with ⟨rfl, hr'⟩ | ⟨rfl, hr'⟩
    · refine ⟨rfl, Role.sector?_injective ?_ hr hr'⟩
      rw [hmap, hmapData, hmapIndex]
      exact hmapNodup
    · exact (hdisjoint hr hr').elim
  · rcases (owns_after hv).mp h' with ⟨rfl, hr'⟩ | ⟨rfl, hr'⟩
    · exact (hdisjoint hr' hr).elim
    · refine ⟨rfl, Role.sector?_injective ?_ hr hr'⟩
      rw [hroot, hrootData, hrootIndex]
      exact hrootNodup

theorem bit_map {i : Nat} : (map count).bit i = true ↔
    i ∈ 0 :: mapSectors count ∨ i ∈ 1 :: rootSectors count := by
  have hlt : ∀ i ∈ free count, i < count := fun i hi => ((mem_free hv.two_le).mp hi).2
  have hone : ∀ i ∈ [0, 1], i < (SectorMap.empty count).size := by
    intro i hi
    have := hv.two_le
    simp only [List.mem_cons, List.not_mem_nil, or_false] at hi
    rw [SectorMap.size_empty]
    omega
  have hsize : (start count).size = count := SectorMap.size_setAll ..
  have hmap : ∀ i ∈ (free count).take (mapUsed count), i < (start count).size := fun i hi =>
    hsize ▸ hlt i (List.mem_of_mem_take hi)
  have hroot : ∀ i ∈ (rest count).take rootUsed,
      i < ((start count).setAll ((free count).take (mapUsed count)) true).size := by
    intro i hi
    rw [SectorMap.size_setAll, hsize]
    exact hlt i (List.mem_of_mem_drop (List.mem_of_mem_take hi))
  rw [map, SectorMap.bit_setAll hroot, SectorMap.bit_setAll hmap, start, SectorMap.bit_setAll hone,
    SectorMap.bit_empty]
  simp only [← (perm_mapSectors hv).mem_iff, ← (perm_rootSectors hv).mem_iff, List.mem_cons,
    List.not_mem_nil, or_false]
  by_cases hr : i ∈ rootSectors count
  · simp [hr]
  by_cases hm : i ∈ mapSectors count
  · simp [hm]
  · simp [hr, hm]

theorem lt_of_mem {i : Nat} (hi : i ∈ 0 :: mapSectors count ∨ i ∈ 1 :: rootSectors count) :
    i < count := by
  have htwo := hv.two_le
  have hfree {i : Nat} (hi : i ∈ free count) : i < count := ((mem_free htwo).mp hi).2
  rcases hi with hi | hi
  · rcases List.mem_cons.mp hi with rfl | hi
    · omega
    · exact hfree (mem_free_of_mapSectors hv hi)
  · rcases List.mem_cons.mp hi with rfl | hi
    · omega
    · exact hfree (mem_free_of_rootSectors hv hi)

/-! ## The request -/

theorem within_headerScript : (headerScript count).Within count := by
  intro t ht
  have hwrite : ∃ s bytes, t = .write s bytes := by
    rcases List.mem_append.mp ht with ht | ht
    · exact Header.Fits.mem_fillScript ht
    rcases List.mem_append.mp ht with ht | ht
    · exact Header.Fits.mem_fillScript ht
    · rcases List.mem_cons.mp ht with rfl | ht
      · exact ⟨_, _, rfl⟩
      · exact ⟨_, _, List.mem_singleton.mp ht⟩
  obtain ⟨s, bytes, rfl⟩ := hwrite
  have hi := (targets_headerScript hv).mem_iff.mp (Script.mem_targets ht)
  refine lt_of_mem hv ?_
  simp only [List.mem_cons, List.mem_append] at hi
  rcases hi with hi | hi | hi | hi
  · exact Or.inl (List.mem_cons.mpr (Or.inl hi))
  · exact Or.inr (List.mem_cons.mpr (Or.inl hi))
  · exact Or.inl (List.mem_cons_of_mem _ (List.mem_append_right _ hi))
  · exact Or.inr (List.mem_cons_of_mem _ (List.mem_append_right _ hi))

theorem within_mapScript : (mapScript m count).Within count := by
  obtain ⟨⟨-, hintact, -, hdata, hindex⟩, -⟩ := facts_of_held hv (held_headed (m := m) hv)
  intro t ht
  have hi := Header.mem_writeScript 0 _ hintact ht
  rw [hdata, hindex] at hi
  exact lt_of_mem hv (Or.inl (List.mem_cons_of_mem _ hi))

theorem within_rootScript : (rootScript m count).Within count := by
  obtain ⟨-, -, hintact, -, hdata, hindex⟩ := facts_of_held hv (held_headed (m := m) hv)
  intro t ht
  have hi := Header.mem_writeScript 0 _ hintact ht
  rw [hdata, hindex] at hi
  exact lt_of_mem hv (Or.inr (List.mem_cons_of_mem _ hi))

variable (hm : sectorSize * count ≤ m.size)
include hm

theorem size_headed : (headed m count).size = m.size :=
  Script.size_medium (within_headerScript hv) hm

theorem size_mapped : ((mapScript m count).medium (headed m count)).size = m.size := by
  rw [Script.size_medium (within_mapScript hv) (by rwa [size_headed hv hm]), size_headed hv hm]

theorem size_after : (after m count).size = m.size := by
  rw [after, Script.size_medium (within_rootScript hv) (by rwa [size_mapped hv hm]),
    size_mapped hv hm]

/-- A new volume is well formed. -/
theorem consistent_after : Consistent (after m count) count where
  covered := by rwa [size_after hv hm]
  intact o s hs := by
    obtain ⟨⟨hmap, hmapIntact, -⟩, hroot, hrootIntact, -⟩ :=
      facts_of_held hv (held_after (m := m) hv)
    rcases (names_after hv).mp hs with ⟨-, rfl⟩ | ⟨-, rfl⟩
    · rwa [hmap]
    · rwa [hroot]
  map_length := by
    rw [(facts_of_held hv (held_after hv)).1.1, mapHeader, hv.map_fits.length_planned]
  directory_length d hd := by
    rw [(reached_after hv).mp hd, (facts_of_held hv (held_after hv)).2.1, rootHeader,
      hv.root_fits.length_planned]
  unique _ _ _ _ _ h h' := unique_after hv h h'
  tidy := by
    rw [bitmap_after hv]
    intro i hi
    rw [size_map] at hi
    apply Bool.eq_false_iff.mpr
    intro hbit
    exact Nat.not_lt.mpr hi (lt_of_mem hv ((bit_map hv).mp hbit))
  bit_iff i := by
    rw [bitmap_after hv, bit_map hv, ← exists_sector?_map (m := m) hv,
      ← exists_sector?_root (m := m) hv]
    constructor
    · rintro (⟨r, hr⟩ | ⟨r, hr⟩)
      · exact ⟨.map, r, (owns_after hv).mpr (Or.inl ⟨rfl, hr⟩)⟩
      · exact ⟨.root, r, (owns_after hv).mpr (Or.inr ⟨rfl, hr⟩)⟩
    · rintro ⟨o, r, ho⟩
      rcases (owns_after hv).mp ho with ⟨-, hr⟩ | ⟨-, hr⟩
      · exact Or.inl ⟨r, hr⟩
      · exact Or.inr ⟨r, hr⟩

omit hm hv in
theorem size_start : (start count).size = count := SectorMap.size_setAll ..

omit hm hv in
theorem free_drawn :
    ((start count).setAll ((free count).take (mapUsed count)) true).free = rest count :=
  SectorMap.free_setAll (start count) (mapUsed count)

omit hm hv in
theorem tidy_start (htwo : 2 ≤ count) : (start count).Tidy := by
  intro i hi
  rw [size_start] at hi
  rw [start, SectorMap.bit_setAll (by simp [SectorMap.size_empty]; omega), SectorMap.bit_empty,
    if_neg (by simp; omega)]

omit hm hv in
theorem tidy_drawn (htwo : 2 ≤ count) :
    ((start count).setAll ((free count).take (mapUsed count)) true).Tidy :=
  SectorMap.tidy_setAll (tidy_start htwo)
    (fun _ hi => SectorMap.lt_of_mem_free (List.mem_of_mem_take hi)) true

omit hm hv in
theorem within_mapBlocks (htwo : 2 ≤ count)
    (hfits : Header.Fits (SectorMap.imageSize count) (free count)) :
    (Header.fillScript (sectorsFor (SectorMap.imageSize count)) (free count)).Within count :=
  hfits.within_fillScript fun _ hi => ((mem_free htwo).mp hi).2

omit hv in
theorem yields_newMap {α : Type} {f : SectorMap × Header → DiskM α} {m' : Medium}
    {result : Except Failure α} (htwo : 2 ≤ count)
    (hfits : Header.Fits (SectorMap.imageSize count) (free count))
    (h : Yields
      (Script.medium m (Header.fillScript (sectorsFor (SectorMap.imageSize count)) (free count)))
      count (f ((start count).setAll ((free count).take (mapUsed count)) true, mapHeader count)) m'
      result) :
    Yields m count (Volume.newHeader (start count) (SectorMap.imageSize count) >>= f) m' result := by
  have hnew : Follows m count (Volume.newHeader (start count) (SectorMap.imageSize count))
      (Header.fillScript (sectorsFor (SectorMap.imageSize count)) (free count))
      (.ok ((start count).setAll ((free count).take (mapUsed count)) true, mapHeader count)) :=
    Volume.follows_newHeader (tidy_start htwo) hfits
  exact Yields.bind (Yields.of_follows hnew (within_mapBlocks htwo hfits) hm) h

theorem yields_headers {α : Type} {f : SectorMap → DiskM α} {m' : Medium}
    {result : Except Failure α} (h : Yields (headed m count) count (f (map count)) m' result) :
    Yields m count (do
      let (map, mapHeader) ← Volume.newHeader (start count) (SectorMap.imageSize count)
      let (map, rootHeader) ← Volume.newHeader map directoryFileSize
      mapHeader.store mapSector
      rootHeader.store rootSector
      f map) m' result := by
  have hroot (m : Medium) : Follows m count
      (Volume.newHeader ((start count).setAll ((free count).take (mapUsed count)) true)
        directoryFileSize)
      (Header.fillScript (sectorsFor directoryFileSize) (rest count))
      (.ok (map count, rootHeader count)) := by
    have hroot : Follows m count
        (Volume.newHeader ((start count).setAll ((free count).take (mapUsed count)) true)
          directoryFileSize) _ _ :=
      Volume.follows_newHeader (tidy_drawn hv.two_le) (free_drawn.symm ▸ hv.root_fits)
    rw [free_drawn] at hroot
    exact hroot
  have hmapStore (m : Medium) : Follows m count ((mapHeader count).store mapSector)
      [.write 0 (mapHeader count).toSector] (.ok ()) := Follows.writeSector 0 _
  have hrootStore (m : Medium) : Follows m count ((rootHeader count).store rootSector)
      [.write 1 (rootHeader count).toSector] (.ok ()) := Follows.writeSector 1 _
  have hheaded : headed m count = Script.medium (Script.medium (Script.medium (Script.medium m
      (Header.fillScript (sectorsFor (SectorMap.imageSize count)) (free count)))
      (Header.fillScript (sectorsFor directoryFileSize) (rest count)))
      [.write 0 (mapHeader count).toSector]) [.write 1 (rootHeader count).toSector] := by
    rw [headed, headerScript, Script.medium_append, Script.medium_append]
    exact Script.medium_append _ [.write 0 (mapHeader count).toSector]
      [.write 1 (rootHeader count).toSector]
  obtain ⟨hmapWithin, hwithin⟩ := Script.within_append.mp (within_headerScript hv)
  obtain ⟨hrootWithin, hwithin⟩ := Script.within_append.mp hwithin
  obtain ⟨hzero, hone⟩ :=
    Script.within_append (a := [.write 0 (mapHeader count).toSector]).mp hwithin
  have hmapSize := Script.size_medium hmapWithin hm
  have hrootSize := Script.size_medium hrootWithin (hmapSize.symm ▸ hm)
  have hzeroSize := Script.size_medium hzero (by rwa [hrootSize, hmapSize])
  rw [hheaded] at h
  refine yields_newMap hm hv.two_le hv.map_fits ?_
  dsimp only
  refine Yields.bind (Yields.of_follows (hroot _) hrootWithin (hmapSize.symm ▸ hm)) ?_
  dsimp only
  refine Yields.bind (Yields.of_follows (hmapStore _) hzero (by rwa [hrootSize, hmapSize])) ?_
  refine Yields.bind (Yields.of_follows (hrootStore _) hone ?_) h
  rwa [hzeroSize, hrootSize, hmapSize]

omit hm in
theorem on_after : Volume.on (after m count) = Volume.on (headed m count) := by
  obtain ⟨⟨hmap, -⟩, hroot, -⟩ := facts_of_held hv (held_headed (m := m) hv)
  obtain ⟨⟨hmap', -⟩, hroot', -⟩ := facts_of_held hv (held_after (m := m) hv)
  rw [Volume.on, Volume.on, opened, opened, opened, opened, hmap, hroot, hmap', hroot']

theorem yields_files : Yields (headed m count) count (files (map count)) (after m count)
    (.ok (Volume.on (after m count))) := by
  obtain ⟨⟨hmap, hmapIntact, hmapSeparate, hmapData, hmapIndex⟩, hroot, hrootIntact, hrootSeparate,
    hrootData, hrootIndex⟩ := facts_of_held hv (held_headed (m := m) hv)
  have hheaded := size_headed hv hm
  have hmapped := size_mapped hv hm
  have hkeep : ∀ i ∈ rootSectors count, ((mapScript m count).medium (headed m count)).get i
      = (headed m count).get i := fun i hi =>
    get_mapped hv _ fun hd => disjoint_sectors hv (List.mem_append_left _ hd) hi
  have hmapHeader : (Volume.on (headed m count)).mapFile.header = mapHeader count := hmap
  have hrootHeader : (Volume.on (headed m count)).rootFile.header = rootHeader count := hroot
  have hmapStore : Follows (headed m count) count
      ((map count).store (Volume.on (headed m count)).mapFile) (mapScript m count) (.ok ()) := by
    have hstore : Follows (headed m count) count
        ((map count).store (Volume.on (headed m count)).mapFile) _ _ :=
      SectorMap.follows_store (map count) (hmapHeader.symm ▸ hmapIntact)
        (hmapHeader.symm ▸ hmapSeparate)
        (Nat.le_of_eq (by rw [hmapHeader, size_map, mapHeader, hv.map_fits.length_planned]))
        (fun _ _ => rfl) fun _ _ => rfl
    rw [hmapHeader] at hstore
    exact hstore
  have hrootStore : Follows ((mapScript m count).medium (headed m count)) count
      ((Directory.empty directorySlots).store (Volume.on (headed m count)).rootFile)
      (rootScript m count) (.ok ()) := by
    have hstore : Follows ((mapScript m count).medium (headed m count)) count
        ((Directory.empty directorySlots).store (Volume.on (headed m count)).rootFile) _ _ :=
      Directory.follows_store (m := headed m count) (Directory.empty directorySlots)
        (hrootHeader.symm ▸ hrootIntact) (hrootHeader.symm ▸ hrootSeparate)
        (by
          rw [hrootHeader, size_blank, rootHeader, hv.root_fits.length_planned]
          exact Nat.le_refl _)
        (fun i hi => hkeep i (List.mem_append_right _ (by rwa [hrootHeader, hrootIndex] at hi)))
        fun i hi => hkeep i (List.mem_append_left _ (by rwa [hrootHeader, hrootData] at hi))
    rw [hrootHeader] at hstore
    exact hstore
  have hopen : Answers (headed m count) count Volume.openFiles (.ok (Volume.on (headed m count))) :=
    Volume.answers_openFiles hv.two_le
  rw [on_after hv]
  refine Yields.bind (Yields.of_answers hopen (by rwa [hheaded])) ?_
  refine Yields.bind (Yields.of_follows hmapStore (within_mapScript hv) (by rwa [hheaded])) ?_
  refine Yields.bind (Yields.of_follows hrootStore (within_rootScript hv) (by rwa [hmapped])) ?_
  exact Yields.bind Yields.sync (Yields.pure _)

omit hm hv in
theorem fits_of_le {size : Nat} {l : List Nat} (hl : l.Sublist (free count)) (htwo : 2 ≤ count)
    (hcount : SectorMap.imageSize count ≤ maxFileSize) (hsize : size ≤ maxFileSize)
    (hroom : sectorsFor size + indexBlocksFor (sectorsFor size) ≤ l.length) :
    Header.Fits size l where
  size_le := hsize
  room := hroom
  small i hi := by
    have hlt := ((mem_free htwo).mp (hl.subset hi)).2
    rw [SectorMap.imageSize] at hcount
    simp only [maxFileSize, maxFileSectors, sectorSize, directPointers, blockPointers] at hcount
    omega
  nodup := (SectorMap.nodup_free _).sublist hl

omit hv in
theorem yields_start {m' : Medium} {result : Except Failure Volume} (htwo : 2 ≤ count)
    (hmax : count ≤ SectorMap.maxSize) (himage : SectorMap.imageSize count ≤ maxFileSize)
    (h : Yields m count (do
      let (map, mapHeader) ← Volume.newHeader (start count) (SectorMap.imageSize count)
      let (map, rootHeader) ← Volume.newHeader map directoryFileSize
      mapHeader.store mapSector
      rootHeader.store rootSector
      files map) m' result) : Yields m count Volume.format m' result := by
  have hfresh : Volume.freshMap count = pure (SectorMap.empty count) := by
    rw [Volume.freshMap, if_neg (Nat.not_lt.mpr hmax), if_neg (Nat.not_lt.mpr himage)]
  have hmarkMap : (SectorMap.empty count).mark (Word.wide mapSector)
      = .ok ((SectorMap.empty count).setBit 0 true) :=
    if_pos (Nat.lt_of_lt_of_le (by decide : Word.wide mapSector < 2) htwo)
  have hmarkRoot : ((SectorMap.empty count).setBit 0 true).mark (Word.wide rootSector)
      = .ok (start count) := if_pos htwo
  unfold Volume.format
  refine Yields.bind (Yields.of_answers (Answers.of_nil Follows.sectorCount) hm) ?_
  rw [if_neg (Nat.not_le.mpr (wide_rootSector.symm ▸ htwo)), hfresh]
  refine Yields.bind (Yields.pure _) ?_
  refine Yields.bind (Yields.of_answers (Answers.of_nil (Follows.of_ok hmarkMap)) hm) ?_
  exact Yields.bind (Yields.of_answers (Answers.of_nil (Follows.of_ok hmarkRoot)) hm) h

/-- A disk that has room takes a volume. -/
theorem yields_format :
    Yields m count Volume.format (after m count) (.ok (Volume.on (after m count))) := by
  have hle := hv.map_fits.size_le
  refine yields_start hm hv.two_le ?_ hle ?_
  · rw [SectorMap.imageSize] at hle
    simp only [maxFileSize, maxFileSectors, sectorSize, directPointers, blockPointers] at hle
    simp only [SectorMap.maxSize]
    omega
  · exact yields_headers hv hm (yields_files hv hm)

omit hv in
theorem yields_error (hnot : ¬ Valid count) :
    ∃ m', Yields m count Volume.format m' (.error (cause count)) := by
  have hcount : Yields m count Disk.sectorCount m (.ok count) :=
    Yields.of_answers (Answers.of_nil Follows.sectorCount) hm
  by_cases htwo : 2 ≤ count
  case neg =>
    have hroom : count ≤ Word.wide rootSector := Nat.le_of_lt_succ (Nat.lt_of_not_le htwo)
    refine ⟨m, Yields.bind hcount ?_⟩
    rw [if_pos hroom, cause, if_pos (Nat.lt_of_not_le htwo)]
    exact Yields.of_answers (Answers.refuse _) hm
  have hroom : ¬ count ≤ Word.wide rootSector := Nat.not_le.mpr htwo
  rw [cause, if_neg (Nat.not_lt.mpr htwo)]
  by_cases hmax : count ≤ SectorMap.maxSize
  case neg =>
    refine ⟨m, Yields.bind hcount ?_⟩
    rw [if_neg hroom, Volume.freshMap, if_pos (Nat.lt_of_not_le hmax),
      if_pos (Nat.lt_of_not_le hmax)]
    exact (Yields.of_answers (Answers.of_nil (Follows.breach _)) hm).bind_error
  rw [if_neg (Nat.not_lt.mpr hmax)]
  by_cases himage : SectorMap.imageSize count ≤ maxFileSize
  case neg =>
    refine ⟨m, Yields.bind hcount ?_⟩
    rw [if_neg hroom, Volume.freshMap, if_neg (Nat.not_lt.mpr hmax),
      if_pos (Nat.lt_of_not_le himage), if_pos (Nat.lt_of_not_le himage)]
    exact (Yields.of_answers (Answers.refuse _) hm).bind_error
  rw [if_neg (Nat.not_lt.mpr himage)]
  by_cases hmap : mapUsed count ≤ (free count).length
  case neg =>
    refine ⟨m, yields_start hm htwo hmax himage (Yields.bind_error ?_)⟩
    exact Yields.of_answers
      (Volume.answers_newHeader_noSpace himage (tidy_start htwo) (Nat.lt_of_not_le hmap)) hm
  have hfits := fits_of_le (List.Sublist.refl _) htwo himage himage hmap
  by_cases hroot : rootUsed ≤ (rest count).length
  case neg =>
    -- the index blocks of the map are written before it is found that there is no room
    have hroom : ((start count).setAll ((free count).take (mapUsed count)) true).free.length
        < rootUsed := by
      rw [free_drawn]
      exact Nat.lt_of_not_le hroot
    refine ⟨_, yields_start hm htwo hmax himage (yields_newMap hm htwo hfits
      (Yields.of_answers ?_ ?_).bind_error)⟩
    · exact Volume.answers_newHeader_noSpace (by decide) (tidy_drawn htwo) hroom
    · rwa [Script.size_medium (within_mapBlocks htwo hfits) hm]
  exact absurd ⟨htwo, hfits, fits_of_le (List.drop_sublist ..) htwo himage (by decide) hroot⟩ hnot

omit hm hv in
theorem valid_sixteen : Valid 16 := by
  have hfree : free 16 = List.range' 2 14 := by decide
  have hrest : rest 16 = List.range' 3 13 := by decide
  refine ⟨by decide, fits_of_le (List.Sublist.refl _) (by decide) (by decide) (by decide) ?_,
    fits_of_le (List.drop_sublist ..) (by decide) (by decide) (by decide) ?_⟩
  · rw [hfree]
    decide
  · rw [hrest]
    decide

end Formatting

end IndexedDisk
