import IndexedDisk.Proofs.Listing

/-!
# Which disks take a volume

A disk takes a volume if it has at least six sectors and at most eight for each byte of the largest
file, which is to hold the map (`valid_iff`). The new volume uses the lowest sectors of the disk,
`reserved` of them, whatever the size of the disk (`bit_map_iff`, `length_free_map`).
-/

open IndexedDisk.Tree IndexedDisk.OpenFile

namespace IndexedDisk

namespace Formatting

variable {m : Medium} {count : Nat}

/-- Sectors that a new volume uses: the two headers, the map, and three for the root directory. -/
def reserved (count : Nat) : Nat :=
  5 + sectorsFor (SectorMap.imageSize count)
    + indexBlocksFor (sectorsFor (SectorMap.imageSize count))

theorem reserved_eq (count : Nat) : reserved count = 2 + mapUsed count + rootUsed := by
  have hroot : rootUsed = 3 := by decide
  rw [reserved, mapUsed, hroot]
  omega

/-! ## The lowest sectors -/

theorem bit_start (h : 2 ≤ count) (i : Nat) : (start count).bit i = decide (i < 2) := by
  have hlt : ∀ j ∈ [0, 1], j < (SectorMap.empty count).size := by
    intro j hj
    rw [SectorMap.size_empty]
    simp only [List.mem_cons, List.not_mem_nil, or_false] at hj
    omega
  rw [start, SectorMap.bit_setAll hlt, SectorMap.bit_empty]
  by_cases hi : i < 2
  · rw [if_pos (by simp only [List.mem_cons, List.not_mem_nil, or_false]; omega),
      decide_eq_true hi]
  · rw [if_neg (by simp only [List.mem_cons, List.not_mem_nil, or_false]; omega),
      decide_eq_false hi]

theorem free_eq (h : 2 ≤ count) : free count = List.range' 2 (count - 2) := by
  obtain ⟨n, rfl⟩ : ∃ n, count = 2 + n := ⟨count - 2, by omega⟩
  have hrange : List.range (2 + n) = 0 :: 1 :: List.range' 2 n := by
    rw [List.range_eq_range', Nat.add_comm, List.range'_succ, List.range'_succ]
  have hkeep : (List.range' 2 n).filter (! (start (2 + n)).bit ·) = List.range' 2 n := by
    refine List.filter_eq_self.mpr fun i hi => ?_
    rw [List.mem_range'_1] at hi
    rw [bit_start h, decide_eq_false (by omega)]
    rfl
  rw [free, SectorMap.free, size_start, hrange, List.filter_cons_of_neg (by simp [bit_start h]),
    List.filter_cons_of_neg (by simp [bit_start h]), hkeep, Nat.add_sub_cancel_left]

theorem mem_take_range {s n k i : Nat} (h : k ≤ n) :
    i ∈ (List.range' s n).take k ↔ s ≤ i ∧ i < s + k := by
  obtain ⟨j, rfl⟩ := Nat.exists_eq_add_of_le h
  rw [← List.range'_append_1, List.take_left' List.length_range', List.mem_range'_1]

theorem rest_eq (h : 2 ≤ count) :
    rest count = List.range' (2 + mapUsed count) (count - 2 - mapUsed count) := by
  rw [rest, free_eq h, List.drop_range', Nat.mul_one]

theorem reserved_le (h : 6 ≤ count) : reserved count ≤ count := by
  rw [reserved, SectorMap.imageSize, sectorsFor]
  unfold indexBlocksFor
  simp only [sectorSize, directPointers, blockPointers]
  split_ifs <;> omega

/-- A disk has room for a volume from six sectors on, as long as a file can hold its map. -/
theorem valid_iff : Valid count ↔ 6 ≤ count ∧ count ≤ 8 * maxFileSize := by
  constructor
  · intro hv
    have hsize := hv.map_fits.size_le
    have hroom := hv.root_fits.room
    have hused : 1 ≤ mapUsed count := by
      have := hv.two_le
      rw [mapUsed, sectorsFor, SectorMap.imageSize]
      simp only [sectorSize]
      omega
    have hroot : sectorsFor directoryFileSize
        + indexBlocksFor (sectorsFor directoryFileSize) = 3 := by decide
    rw [rest_eq hv.two_le, List.length_range', hroot] at hroom
    rw [SectorMap.imageSize] at hsize
    omega
  · rintro ⟨hsix, hmax⟩
    have htwo : 2 ≤ count := by omega
    have himage : SectorMap.imageSize count ≤ maxFileSize := by
      rw [SectorMap.imageSize]
      omega
    have hle := reserved_eq count ▸ reserved_le hsix
    refine ⟨htwo, fits_of_le (List.Sublist.refl _) htwo himage himage ?_,
      fits_of_le (List.drop_sublist ..) htwo himage (by decide) ?_⟩
    · rw [free_eq htwo, List.length_range', ← mapUsed]
      omega
    · change rootUsed ≤ (rest count).length
      rw [rest_eq htwo, List.length_range']
      omega

/-! ## The new volume -/

theorem bit_map_iff (hv : Valid count) {i : Nat} :
    (map count).bit i = true ↔ i < reserved count := by
  have htwo := hv.two_le
  have hle := reserved_eq count ▸ reserved_le (valid_iff.mp hv).1
  have hmap : ∀ j ∈ (free count).take (mapUsed count), j < (start count).size := fun j hj =>
    SectorMap.lt_of_mem_free (List.mem_of_mem_take hj)
  have hroot : ∀ j ∈ (rest count).take rootUsed,
      j < ((start count).setAll ((free count).take (mapUsed count)) true).size := fun j hj => by
    rw [SectorMap.size_setAll]
    exact SectorMap.lt_of_mem_free (List.mem_of_mem_drop (List.mem_of_mem_take hj))
  have hmemMap : i ∈ (free count).take (mapUsed count) ↔ 2 ≤ i ∧ i < 2 + mapUsed count := by
    rw [free_eq htwo, mem_take_range (by omega)]
  have hmemRoot : i ∈ (rest count).take rootUsed
      ↔ 2 + mapUsed count ≤ i ∧ i < 2 + mapUsed count + rootUsed := by
    rw [rest_eq htwo, mem_take_range (by omega)]
  rw [reserved_eq, map, SectorMap.bit_setAll hroot, SectorMap.bit_setAll hmap, bit_start htwo]
  split_ifs with hr hm
  · exact iff_of_true rfl (hmemRoot.mp hr).2
  · have := hmemMap.mp hm
    exact iff_of_true rfl (by omega)
  · rw [hmemRoot] at hr
    rw [hmemMap] at hm
    rw [decide_eq_true_iff]
    omega

theorem length_free_map (hv : Valid count) : (map count).free.length = count - reserved count := by
  have hfree : (map count).free = (rest count).drop rootUsed := by
    have h := SectorMap.free_setAll
      ((start count).setAll ((free count).take (mapUsed count)) true) rootUsed
    rwa [free_drawn] at h
  rw [hfree, rest_eq hv.two_le, List.length_drop, List.length_range', reserved_eq]
  omega

theorem cause_eq (hmax : count ≤ SectorMap.maxSize) : cause count =
    if 8 * maxFileSize < count then .refused (.fileTooLarge (SectorMap.imageSize count))
    else .refused .noSpace := by
  have hlarge : maxFileSize < SectorMap.imageSize count ↔ 8 * maxFileSize < count := by
    rw [SectorMap.imageSize]
    omega
  rw [cause, if_neg (Nat.not_lt.mpr hmax)]
  by_cases hsmall : count < 2
  · have htiny : 2 ≤ 8 * maxFileSize := by decide
    rw [if_pos hsmall, if_neg (by omega)]
  · simp only [if_neg hsmall, hlarge]

end Formatting

/--
A volume that was just made on a disk of `count` sectors: its own sectors are in use and no others,
there is nothing in it, and mounting finds the two headers that it has in memory.
-/
structure FileSystem.Fresh (fs : FileSystem) (count : Nat) : Prop where
  count_eq : fs.disk.count = count
  bit_iff : ∀ i, (bitmap fs.disk.medium count).bit i = true ↔ i < Formatting.reserved count
  reserved_le : Formatting.reserved count ≤ count
  freeSectors : (Request.freeSectors.perform fs).1
    = .counted (count - Formatting.reserved count)
  list : ((Request.list "/").perform fs).1 = .listed []
  mounted : ∃ disk fs', fs.unmount = .ok disk ∧ FileSystem.mount disk = .ok fs' ∧
    fs'.volume = fs.volume

namespace FileSystem

theorem fresh_of_format {disk : Disk} {fs : FileSystem} (hfaults : disk.faults.Faultless)
    (hmedium : sectorSize * disk.count ≤ disk.medium.size) (hformat : format disk = .ok fs) :
    fs.Fresh disk.count := by
  obtain ⟨m, count, p⟩ := disk
  dsimp only at hfaults hmedium ⊢
  have hhealthy := Healthy.of_format hfaults hmedium hformat
  obtain ⟨hv, q, hq, rfl⟩ := eq_of_format hfaults hmedium hformat
  have hc := Formatting.consistent_after hv hmedium
  have hbitmap : bitmap (Formatting.after m count) count
      = Formatting.map count := Formatting.bitmap_after hv
  refine ⟨rfl, fun i => ?_, Formatting.reserved_le (Formatting.valid_iff.mp hv).1, ?_, ?_, ?_⟩
  · rw [hbitmap]
    exact Formatting.bit_map_iff hv
  · rw [hhealthy.perform_freeSectors, hbitmap, Formatting.length_free_map hv]
  · have hsplit : Path.split "/" = .ok [] := by decide
    have hnone : (Directory.empty directorySlots).list = [] := by decide
    have hlisted : listed (Formatting.after m count) "/" = .ok [] := by
      rw [listed, hsplit]
      dsimp only
      rw [walk]
      dsimp only
      rw [Formatting.table_after hv, hnone]
    rw [hhealthy.perform_list, hlisted]
    rfl
  · obtain ⟨q', hq', hmount⟩ := mount_eq hc hq
    exact ⟨_, _, unmount_eq hq, hmount, rfl⟩

end FileSystem

/--
**Which disks take a volume.** Let a disk show no faults, and let there be a map of as many sectors
as it has. It takes a volume if it has at least six sectors and a file can hold its map. A smaller
disk is refused for want of space, and a larger one because of the size of the map. The volume uses
the lowest sectors, as many as its map asks for; the others are free, and its headers are found again
by mounting.
-/
theorem takes_volume_iff {disk : Disk} (hfaults : disk.faults.Faultless)
    (hmedium : sectorSize * disk.count ≤ disk.medium.size)
    (hmax : disk.count ≤ SectorMap.maxSize) :
    ((∃ fs, FileSystem.format disk = .ok fs) ↔ 6 ≤ disk.count ∧ disk.count ≤ 8 * maxFileSize) ∧
    (disk.count < 6 → ∃ disk', FileSystem.format disk = .error (.refused .noSpace, disk')) ∧
    (8 * maxFileSize < disk.count → ∃ disk', FileSystem.format disk
      = .error (.refused (.fileTooLarge (SectorMap.imageSize disk.count)), disk')) ∧
    ∀ fs, FileSystem.format disk = .ok fs → fs.Fresh disk.count := by
  have herror (h : ¬ (6 ≤ disk.count ∧ disk.count ≤ 8 * maxFileSize)) :
      ∃ disk', FileSystem.format disk = .error (Formatting.cause disk.count, disk') :=
    FileSystem.format_error hfaults hmedium fun hv => h (Formatting.valid_iff.mp hv)
  rw [Formatting.cause_eq hmax] at herror
  refine ⟨⟨fun ⟨fs, hfs⟩ => ?_, fun h => ?_⟩, fun h => ?_, fun h => ?_, fun fs hfs => ?_⟩
  · exact Formatting.valid_iff.mp (FileSystem.eq_of_format hfaults hmedium hfs).1
  · obtain ⟨q, -, heq⟩ := FileSystem.format_eq hfaults hmedium (Formatting.valid_iff.mpr h)
    exact ⟨_, heq⟩
  · have hsmall : 6 ≤ 8 * maxFileSize := by decide
    rw [if_neg (by omega)] at herror
    exact herror (by omega)
  · rw [if_pos h] at herror
    exact herror (by omega)
  · exact FileSystem.fresh_of_format hfaults hmedium hfs

/-- The largest disk that takes a volume, on a medium that is not blank. -/
theorem takes_volume_iff_largest : ∃ disk : Disk, disk.count = 8 * maxFileSize ∧
    disk.medium.byteAt 0 = 0xAA ∧ disk.faults.Faultless ∧
    sectorSize * disk.count ≤ disk.medium.size ∧ disk.count ≤ SectorMap.maxSize ∧
    ∃ fs, FileSystem.format disk = .ok fs ∧ fs.Fresh disk.count := by
  let disk : Disk := ⟨.replicate (sectorSize * (8 * maxFileSize)) 0xAA, 8 * maxFileSize, {}⟩
  have hfaults : disk.faults.Faultless := FaultPlan.faultless_default
  have hmedium : sectorSize * disk.count ≤ disk.medium.size :=
    Nat.le_of_eq (Medium.size_replicate ..).symm
  have hmax : disk.count ≤ SectorMap.maxSize := by decide
  obtain ⟨hiff, -, -, hfresh⟩ := takes_volume_iff hfaults hmedium hmax
  obtain ⟨fs, hfs⟩ := hiff.mpr ⟨by decide, Nat.le_refl _⟩
  refine ⟨disk, rfl, ?_, hfaults, hmedium, hmax, fs, hfs, hfresh fs hfs⟩
  change (Medium.replicate (sectorSize * (8 * maxFileSize)) 0xAA).byteAt 0 = 0xAA
  rw [Medium.byteAt_eq, Medium.replicate, Array.getElem?_replicate, if_pos (by decide)]
  rfl

end IndexedDisk
