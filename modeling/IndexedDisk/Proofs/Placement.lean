import IndexedDisk.Proofs.Drawing
import IndexedDisk.Proofs.Serving
import Mathlib.Data.List.Nodup

/-!
# Where an allocation puts a file

An allocation takes the lowest free sectors of the map, as many as the file has data sectors and
index blocks (`SectorMap.lowestFor`). `Placed` says how the enumerations, the address translation
and the map find them afterwards. The three go over the tiers in different ways, and they agree.

* `laid_of_allocate`: what any allocation that succeeds has done to the map, the header and the
  disk. What is said of allocated files elsewhere starts from `Laid`.
* `allocates_lowest_free`: when an allocation succeeds, and that it places the file.
-/

namespace IndexedDisk

namespace SectorMap

/-- The sectors that a file of `size` bytes takes of the map. -/
def lowestFor (map : SectorMap) (size : Nat) : List Nat :=
  map.free.take (sectorsFor size + indexBlocksFor (sectorsFor size))

/-- Those of them that hold its index blocks. -/
def blocksFor (map : SectorMap) (size : Nat) : List Nat :=
  Header.plannedIndex (sectorsFor size) (map.lowestFor size)

/-- A file of `size` bytes takes no sector whose number is too large for a pointer. -/
def Addressable (map : SectorMap) (size : Nat) : Prop := ∀ i ∈ map.lowestFor size, i < 0x80000000

variable {map : SectorMap} {size : Nat}

theorem lowestFor_subset : map.lowestFor size ⊆ map.free := List.take_subset ..

theorem lt_of_mem_lowestFor {i : Nat} (hi : i ∈ map.lowestFor size) : i < map.size :=
  lt_of_mem_free (lowestFor_subset hi)

theorem sorted_lowestFor : (map.lowestFor size).Pairwise (· < ·) :=
  (sorted_free map).sublist (List.take_sublist ..)

theorem addressable_of_size_le (h : map.size ≤ 0x80000000) (size : Nat) : map.Addressable size :=
  fun _ hi => Nat.lt_of_lt_of_le (lt_of_mem_lowestFor hi) h

theorem bit_take_lowestFor {i : Nat} : (map.setAll (map.lowestFor size) true).bit i = true ↔
    map.bit i = true ∨ i ∈ map.lowestFor size := by
  rw [bit_setAll fun _ => lt_of_mem_lowestFor]
  by_cases hi : i ∈ map.lowestFor size <;> simp [hi]

end SectorMap

namespace Header

/-! ## The order of the data sectors -/

theorem take_append_sublist {l rest : List Nat} {a b : Nat} (h : a ≤ b)
    (hrest : rest.Sublist (l.drop b)) : (l.take a ++ rest).Sublist l := by
  conv => rhs; rw [← List.take_append_drop b l]
  exact (List.take_sublist_take_left h).append hrest

theorem childData_sublist (k rest : Nat) (l : List Nat) : (childData k rest l).Sublist l := by
  induction k generalizing rest l with
  | zero => exact List.nil_sublist _
  | succ k ih =>
    refine List.Sublist.trans ?_ (List.drop_sublist 1 l)
    refine take_append_sublist (Nat.min_le_right rest blockPointers) ?_
    rw [List.drop_drop]
    exact ih ..

theorem plannedData_sublist (n : Nat) (l : List Nat) : (plannedData n l).Sublist l := by
  rw [plannedData, List.append_assoc]
  refine take_append_sublist (b := 29) (Nat.le_trans (Nat.min_le_right ..) (by decide)) ?_
  refine take_append_sublist (Nat.min_le_right _ blockPointers) ?_
  rw [List.drop_drop]
  exact (childData_sublist ..).trans (List.drop_sublist_drop_left _ (by decide))

/-! ## Allocations that succeed -/

variable {m : Medium} {count : Nat} {p : FaultPlan} {map : SectorMap} {h : Header} {size : Nat}

theorem fits_lowestFor (hsize : size ≤ maxFileSize)
    (hroom : sectorsFor size + indexBlocksFor (sectorsFor size) ≤ map.free.length)
    (hsmall : map.Addressable size) : Fits size (map.lowestFor size) where
  size_le := hsize
  room := by
    rw [SectorMap.lowestFor, List.length_take]
    exact Nat.le_min.mpr ⟨Nat.le_refl _, hroom⟩
  small := hsmall
  nodup := SectorMap.sorted_lowestFor.imp Nat.ne_of_lt

theorem follows_allocate_lowestFor {free : Nat} (hfree : map.freeCount = .ok free)
    (hroom : sectorsFor size + indexBlocksFor (sectorsFor size) ≤ free)
    (hf : Fits size (map.lowestFor size)) :
    Follows m count (Disk.runOn ⟨map, h⟩ (allocate size))
      (fillScript (sectorsFor size) (map.lowestFor size))
      (.ok ((), ⟨map.setAll (map.lowestFor size) true, planned size (map.lowestFor size)⟩)) := by
  rw [SectorMap.lowestFor, fillScript_take, planned_take]
  exact follows_allocate_of_freeCount hfree hroom hf

theorem room_of_allocate {disk : Disk} {held : Disk.With Holding} {u : Unit}
    (hact : allocate size ⟨disk, map, h⟩ = .ok u held) : size ≤ maxFileSize ∧
      ∃ free, map.freeCount = .ok free ∧
        sectorsFor size + indexBlocksFor (sectorsFor size) ≤ free := by
  unfold allocate at hact
  dsimp only at hact
  split at hact
  · cases hact
  rename_i hsize
  split at hact
  · cases hact
  rename_i free hfree
  split at hact
  · cases hact
  rename_i hroom
  exact ⟨Nat.le_of_not_lt hsize, free, hfree, Nat.le_of_not_lt hroom⟩

theorem sources_fillScript (n : Nat) (l : List Nat) : (fillScript n l).sources = [] := by
  refine List.eq_nil_iff_forall_not_mem.mpr fun s hs => ?_
  obtain ⟨_, _, heq⟩ := Fits.mem_fillScript (Script.mem_sources.mp hs)
  cases heq

/-- An allocation for which there is room succeeds if its index blocks can be written. -/
theorem exists_allocate {disk : Disk} {free : Nat} (hfree : map.freeCount = .ok free)
    (hroom : sectorsFor size + indexBlocksFor (sectorsFor size) ≤ free)
    (hf : Fits size (map.lowestFor size)) (haccept : disk.Accepts (map.blocksFor size))
    (h : Header) : ∃ held, allocate size ⟨disk, map, h⟩ = .ok () held := by
  have hrun := (follows_allocate_lowestFor (h := h) hfree hroom hf).eval_of_served
    (p := disk.faults) (by rw [sources_fillScript]; exact Disk.Delivers.nil _)
    (haccept.mono hf.targets_fillScript.subset (Nat.le_of_eq hf.targets_fillScript.length_eq))
  exact ⟨_, Disk.eq_ok_of_runOn hrun⟩

theorem Fits.perm_lowestFor (hf : Fits size (map.lowestFor size)) :
    (plannedData (sectorsFor size) (map.lowestFor size) ++ map.blocksFor size).Perm
      (map.lowestFor size) := by
  have hperm := hf.perm_planned
  rwa [SectorMap.lowestFor, List.take_take, Nat.min_self, ← SectorMap.lowestFor] at hperm

/-- The header is that of a file of `size` bytes whose sectors were taken from `map` by the plan. -/
structure Laid (map : SectorMap) (size : Nat) (disk : Disk) (held : Disk.With Holding) : Prop where
  map_eq : held.value.map = map.setAll (map.lowestFor size) true
  fits : Fits size (map.lowestFor size)
  intact : held.value.header.Intact held.disk.medium
  length_eq : held.value.header.length = size
  data_eq : held.value.header.data held.disk.medium
    = plannedData (sectorsFor size) (map.lowestFor size)
  index_eq : held.value.header.index held.disk.medium = map.blocksFor size
  count_eq : held.disk.count = disk.count
  get_eq : ∀ s ∉ map.blocksFor size, held.disk.medium.get s = disk.medium.get s
  size_le : disk.medium.size ≤ held.disk.medium.size
  lt_count : ∀ s ∈ map.blocksFor size, s < disk.count
  covered : ∀ s ∈ map.blocksFor size, sectorSize * (s + 1) ≤ held.disk.medium.size
  yields : ∀ sectors, disk.faults.Yields sectors → held.disk.faults.Yields sectors

/-- An allocation that succeeds has written its index blocks and marked its sectors. -/
theorem laid_of_allocate (hsmall : map.Addressable size) {disk : Disk} {held : Disk.With Holding}
    {u : Unit} (hact : allocate size ⟨disk, map, h⟩ = .ok u held) : Laid map size disk held := by
  obtain ⟨m, count, p⟩ := disk
  obtain ⟨hsize, free, hfree, hroom⟩ := room_of_allocate hact
  have hf := fits_lowestFor hsize (Nat.le_trans hroom (SectorMap.le_length_free hfree)) hsmall
  have hfollows : Follows m count (Disk.runOn ⟨map, h⟩ (allocate size)) _ _ :=
    follows_allocate_lowestFor hfree hroom hf
  have htargets : (fillScript (sectorsFor size) (map.lowestFor size)).targets.Perm
      (map.blocksFor size) := hf.targets_fillScript
  have hm := Script.held_medium hf.nodup_targets m
  obtain ⟨disk, v⟩ := held
  have hrun : Disk.runOn ⟨map, h⟩ (allocate size) ⟨m, count, p⟩ = .ok ((), v) disk := by
    rw [Disk.runOn, hact]
  obtain ⟨hvalue, hplay⟩ := hfollows.play_of_ok hrun
  have hwithin := Script.within_of_play hplay
  obtain rfl := Script.play_ok hplay
  obtain rfl := (Prod.mk.inj (Except.ok.inj hvalue)).2
  exact {
    map_eq := rfl
    fits := hf
    intact := hf.intact_planned hm
    length_eq := hf.length_planned
    data_eq := hf.data_planned hm
    index_eq := hf.index_planned hm
    count_eq := rfl
    get_eq := fun s hs => Script.get_medium_of_not_mem (fun h => hs (htargets.mem_iff.mp h)) m
    size_le := Script.le_size_medium ..
    lt_count := fun s hs => by
      obtain ⟨bytes, hwrite⟩ := Script.exists_write_of_mem_targets (htargets.mem_iff.mpr hs)
      exact hwithin _ hwrite
    covered := fun s hs => Script.covered_of_mem_targets (htargets.mem_iff.mpr hs) m
    yields := fun _ hp => hp.plan (sources_fillScript ..) }

namespace Laid

variable {disk : Disk} {held : Disk.With Holding} (hl : Laid map size disk held)
include hl

theorem perm : (held.value.header.data held.disk.medium
    ++ held.value.header.index held.disk.medium).Perm (map.lowestFor size) := by
  rw [hl.data_eq, hl.index_eq]
  exact hl.fits.perm_lowestFor

theorem separate : held.value.header.Separate held.disk.medium :=
  hl.perm.nodup_iff.mpr hl.fits.nodup

theorem sectors_eq : held.value.header.sectors = sectorsFor size := by
  rw [hl.intact.sectors_eq, hl.length_eq]

theorem sorted_data : (held.value.header.data held.disk.medium).Pairwise (· < ·) := by
  rw [hl.data_eq]
  exact SectorMap.sorted_lowestFor.sublist (plannedData_sublist ..)

theorem delivers (hp : disk.faults.Yields (map.blocksFor size)) :
    held.disk.Delivers (held.value.header.index held.disk.medium) := by
  rw [hl.index_eq]
  exact {
    toYields := hl.yields _ hp
    lt_count := fun s hs => hl.count_eq ▸ hl.lt_count s hs
    covered := hl.covered }

end Laid

/--
A file of `size` bytes is found where an allocation from `map` has put it: `data` are its data
sectors and `index` its index blocks.
-/
structure Placed (map : SectorMap) (size : Nat) (disk : Disk) (held : Disk.With Holding)
    (data index : List Int32) : Prop where
  size_eq : held.value.map.size = map.size
  bit_iff : ∀ i, held.value.map.bit i = true ↔ map.bit i = true ∨ i ∈ map.lowestFor size
  length_eq : held.value.header.length = size
  dataSectors_eq : ∃ d, held.value.header.dataSectors held.disk = .ok data d
  indexSectors_eq : ∃ d, held.value.header.indexSectors held.disk = .ok index d
  length_data : data.length = sectorsFor size
  length_index : index.length = indexBlocksFor (sectorsFor size)
  perm : ((data ++ index).map Word.wide).Perm (map.lowestFor size)
  nodup : (data ++ index).Nodup
  sorted : (data.map Word.wide).Pairwise (· < ·)
  blocks_eq : index.map Word.wide = map.blocksFor size
  sectorOf_lt : ∀ o < size, ∃ p d, data[o / sectorSize]? = some p ∧
    held.value.header.sectorOf o held.disk = .ok p d
  sectorOf_ge : ∀ o, size ≤ o → held.value.header.sectorOf o held.disk
    = .error (.refused (.outOfRange o size)) held.disk
  get_eq : ∀ s ∉ index.map Word.wide, held.disk.medium.get s = disk.medium.get s
  size_le : disk.medium.size ≤ held.disk.medium.size

/-- The three ways of finding the sectors of a file agree on where it was put. -/
theorem Laid.placed {disk : Disk} {held : Disk.With Holding} (hl : Laid map size disk held)
    (hp : disk.faults.Yields (map.blocksFor size)) : Placed map size disk held
      (held.value.header.dataPointers held.disk.medium)
      (held.value.header.indexPointers held.disk.medium) := by
  have hdeliver := hl.delivers hp
  have hperm := hl.perm
  have hmap := hl.map_eq
  obtain ⟨⟨m, count, q⟩, map', h'⟩ := held
  obtain rfl : map' = _ := hmap
  have hlength := hl.length_eq
  have hdata := hl.intact.length_data
  have hindex := hl.intact.length_index
  rw [hl.sectors_eq] at hdata hindex
  dsimp only at *
  have happly : (h'.dataPointers m ++ h'.indexPointers m).map Word.wide
      = h'.data m ++ h'.index m := List.map_append ..
  exact {
    size_eq := SectorMap.size_setAll ..
    bit_iff := fun _ => SectorMap.bit_take_lowestFor
    length_eq := hlength
    dataSectors_eq := ⟨_, hl.intact.follows_dataSectors.eval_of_delivers hdeliver⟩
    indexSectors_eq := ⟨_, hl.intact.follows_indexSectors.eval_of_delivers
      (hdeliver.sublist double_sublist_index)⟩
    length_data := by rwa [data, List.length_map] at hdata
    length_index := by rwa [index, List.length_map] at hindex
    perm := happly ▸ hperm
    nodup := List.Nodup.of_map Word.wide (happly ▸ hl.separate)
    sorted := hl.sorted_data
    blocks_eq := hl.index_eq
    sectorOf_lt := fun o ho => by
      have ho' : o < h'.length := hlength.symm ▸ ho
      exact ⟨_, _, hl.intact.dataPointers_eq_some (hl.intact.lt_sectors ho'),
        (hl.intact.follows_sectorOf ho').eval_of_delivers
          (hdeliver.sublist (hl.intact.route_sublist (hl.intact.lt_sectors ho')))⟩
    sectorOf_ge := fun o ho => by
      rw [sectorOf, if_pos (hlength.symm ▸ ho), hlength]
      rfl
    get_eq := fun s hs => hl.get_eq s (hl.index_eq ▸ hs)
    size_le := hl.size_le }

/--
**An allocation takes the lowest free sectors.** Let a map have up to `2 ^ 31` sectors, and, if a
file of `size` bytes fits in it, let the index blocks of the file be written and read back without a
fault. Whatever the header was before, the allocation succeeds if and only if the file is not too
large and the map counts enough free sectors. Then the file is placed: newly marked are the lowest
sectors that were free, as many as the file has data sectors and index blocks; the enumerations list
these, the data sectors in increasing order; the byte at an offset is found in the data sector of
that number, and no byte past the end is found; and no sector of the disk has changed that is not an
index block.
-/
theorem allocates_lowest_free {map : SectorMap} {disk : Disk} {size : Nat}
    (hsize : map.size ≤ 0x80000000)
    (hblocks : Fits size (map.lowestFor size) →
      disk.Accepts (map.blocksFor size) ∧ disk.faults.Yields (map.blocksFor size)) (h : Header) :
    ((∃ held, allocate size ⟨disk, map, h⟩ = .ok () held) ↔
      size ≤ maxFileSize ∧ ∃ free, map.freeCount = .ok free ∧
        sectorsFor size + indexBlocksFor (sectorsFor size) ≤ free) ∧
    ∀ held, allocate size ⟨disk, map, h⟩ = .ok () held →
      ∃ data index, Placed map size disk held data index := by
  have hsmall := SectorMap.addressable_of_size_le hsize size
  refine ⟨⟨fun ⟨held, hact⟩ => room_of_allocate hact, ?_⟩, fun held hact => ?_⟩
  · rintro ⟨hsize, free, hfree, hroom⟩
    have hf := fits_lowestFor hsize (Nat.le_trans hroom (SectorMap.le_length_free hfree)) hsmall
    exact exists_allocate hfree hroom hf (hblocks hf).1 h
  · have hl := laid_of_allocate hsmall hact
    exact ⟨_, _, hl.placed (hblocks hl.fits).2⟩

/-! ### An allocation whose single block is full

A file of 59 sectors has a double block, which names no child. It takes 61 of the 64 sectors here.
-/

theorem serves_full (m : Medium) (hf : Fits 7552 ((SectorMap.empty 64).lowestFor 7552)) :
    Disk.Accepts ⟨m, 64, {}⟩ ((SectorMap.empty 64).blocksFor 7552) ∧
      FaultPlan.Yields {} ((SectorMap.empty 64).blocksFor 7552) where
  left := {
    lt_count := fun s hs => by
      have hmem := hf.perm_lowestFor.subset (List.mem_append_right _ hs)
      exact SectorMap.lt_of_mem_lowestFor hmem
    writable := fun _ _ => rfl
    writes := fun b hb => absurd hb (by simp)
    budget := fun _ hn => absurd hn (by simp) }
  right := ⟨fun b hb => absurd hb (by simp), fun _ _ => rfl⟩

theorem exists_allocate_full (m : Medium) (h : Header) :
    ∃ held, allocate 7552 ⟨⟨m, 64, {}⟩, .empty 64, h⟩ = .ok () held := by
  have htidy : (SectorMap.empty 64).Tidy := fun i _ => SectorMap.bit_empty 64 i
  have hfree : (SectorMap.empty 64).free.length = 64 := by decide
  have hf : Fits 7552 ((SectorMap.empty 64).lowestFor 7552) := fits_lowestFor (by decide)
    (hfree ▸ (by decide)) (SectorMap.addressable_of_size_le (by decide) _)
  exact exists_allocate (SectorMap.freeCount_eq htidy) (hfree ▸ (by decide)) hf
    (serves_full m hf).1 h

theorem allocates_lowest_free_full : ∃ disk held data index,
    (SectorMap.empty 64).size ≤ 0x80000000 ∧
    (Fits 7552 ((SectorMap.empty 64).lowestFor 7552) →
      disk.Accepts ((SectorMap.empty 64).blocksFor 7552) ∧
      disk.faults.Yields ((SectorMap.empty 64).blocksFor 7552)) ∧
    allocate 7552 ⟨disk, .empty 64, .empty⟩ = .ok () held ∧
    Placed (.empty 64) 7552 disk held data index := by
  have hsize : (SectorMap.empty 64).size ≤ 0x80000000 := by decide
  obtain ⟨held, hact⟩ := exists_allocate_full (.replicate 0 0) .empty
  obtain ⟨data, index, hfile⟩ :=
    (allocates_lowest_free hsize (serves_full (.replicate 0 0)) .empty).2 held hact
  exact ⟨_, held, data, index, hsize, serves_full _, hact, hfile⟩

end Header

end IndexedDisk
