import IndexedDisk.Proofs.Images
import IndexedDisk.Proofs.Undoing

/-!
# Bits past the last sector

A stored map fills whole bytes, and up to seven bits of the last one stand for no sector. A map that
is fetched keeps them as they are stored. Where one is set, which happens when the map was written for
a larger disk, two views of the map come apart: the sectors that are free, which can be taken one
after the other, and their count, from which each such bit is taken off.

* `run_takes`: the free sectors can be taken, and then there is none.
* `counted`: what is told of the free sectors by their count, to those who ask for space as well.
* `fetched_maps_count_strays`: so it is with any map that is fetched from a file.
* `counted_less_than_free`: a count that is wrong.
-/

namespace IndexedDisk

theorem Keeper.run_takes (m : SectorMap) (n : Nat) :
    maps.run (List.replicate n .take) m
      = ((m.free.take n).map .taken ++ List.replicate (n - m.free.length) .full,
        m.setAll (m.free.take n) true) := by
  induction n generalizing m with
  | zero => rw [Nat.zero_sub]; rfl
  | succ n ih =>
    cases hfree : m.free with
    | nil =>
      have hrespond : maps.respond m .take = (.full, m) := by
        simp only [respond, maps, SectorMap.take_eq_none_of_free hfree]
      simp only [List.replicate_succ, run, hrespond, ih m, hfree, List.take_nil, List.map_nil,
        List.nil_append, List.length_nil, Nat.sub_zero]
    | cons i rest =>
      have hrespond : maps.respond m .take = (.taken i, m.setBit i true) := by
        simp only [respond, maps, SectorMap.take_eq hfree]
      simp only [List.replicate_succ, run, hrespond, ih (m.setBit i true),
        SectorMap.free_setBit hfree, List.take_succ_cons, List.map_cons, List.cons_append,
        List.length_cons, Nat.add_sub_add_right]
      rfl

namespace SectorMap

/-- What is told of the free sectors of a map by their count. -/
structure Counted (map : SectorMap) : Prop where
  freeCount_eq : map.freeCount = if map.strays ≤ map.free.length
    then .ok (map.free.length - map.strays) else .error .arithmetic
  freeCount_eq_iff : map.freeCount = .ok map.free.length ↔ map.strays = 0
  replies_eq : ∀ n, (Keeper.maps.run (List.replicate n .take) map).1
    = (map.free.take n).map .taken ++ List.replicate (n - map.free.length) .full
  broken : ∀ disk h n, n ≤ maxFileSize → map.free.length < map.strays →
    Header.allocate n ⟨disk, map, h⟩ = .error (.broken .arithmetic) ⟨disk, map, h⟩
  refused : ∀ disk h n, n ≤ maxFileSize → map.strays ≤ map.free.length →
    map.free.length < map.strays + (sectorsFor n + indexBlocksFor (sectorsFor n)) →
    Header.allocate n ⟨disk, map, h⟩ = .error (.refused .noSpace) ⟨disk, map, h⟩
  device : ∀ disk h n, n ≤ maxFileSize →
    map.strays + (sectorsFor n + indexBlocksFor (sectorsFor n)) ≤ map.free.length →
    ∀ cause held, Header.allocate n ⟨disk, map, h⟩ = .error cause held →
      ∃ e, cause = .refused (.device e)

theorem freeCount_eq_length_iff (map : SectorMap) :
    map.freeCount = .ok map.free.length ↔ map.strays = 0 := by
  refine ⟨fun h => ?_, fun h => freeCount_eq (strays_eq_zero_iff.mp h)⟩
  rw [freeCount_eq_ite] at h
  split at h
  · have := Except.ok.inj h
    omega
  · cases h

theorem counted (map : SectorMap) : map.Counted where
  freeCount_eq := freeCount_eq_ite map
  freeCount_eq_iff := freeCount_eq_length_iff map
  replies_eq n := by rw [Keeper.run_takes]
  broken disk h n hsize hstrays := by
    rw [Header.allocate, if_neg (Nat.not_lt.mpr hsize), freeCount_eq_ite,
      if_neg (Nat.not_le.mpr hstrays)]
  refused disk h n hsize hstrays hroom := by
    rw [Header.allocate, if_neg (Nat.not_lt.mpr hsize), freeCount_eq_ite, if_pos hstrays]
    exact if_pos (by omega)
  device disk h n hsize hroom cause held hact := by
    have hcount : map.freeCount = .ok (map.free.length - map.strays) := by
      rw [freeCount_eq_ite, if_pos (by omega)]
    rw [Header.allocate, if_neg (Nat.not_lt.mpr hsize), hcount] at hact
    dsimp only at hact
    rw [if_neg (by omega)] at hact
    cases hfill : Supply.fill n ⟨disk, map, []⟩ with
    | ok h' held' =>
      rw [hfill] at hact
      cases hact
    | error e held' =>
      obtain ⟨e, rfl⟩ := Supply.device_of_fill hsize hcount (by omega) hfill
      rw [hfill] at hact
      dsimp only at hact
      rw [Supply.releaseAll_of_fill hfill] at hact
      cases hact
      exact ⟨e, rfl⟩

theorem mem_free_iff_isMarked {map : SectorMap} {i : Nat} :
    i ∈ map.free ↔ map.isMarked i = .ok false := by
  rw [mem_free, isMarked]
  by_cases hi : i < map.size <;> simp [hi]

end SectorMap

theorem Volume.freeSectors_eq {v : Volume} {disk disk' : Disk} {map : SectorMap}
    (hfetch : SectorMap.fetch v.mapFile disk.count disk = .ok map disk') :
    v.freeSectors disk = if map.strays ≤ map.free.length
      then .ok (map.free.length - map.strays) disk' else .error (.broken .arithmetic) disk' := by
  have hmap : v.fetchMap disk = .ok map disk' := hfetch
  rw [freeSectors, bind_apply, hmap]
  dsimp only
  rw [SectorMap.freeCount_eq_ite]
  split <;> rfl

/--
**The count of a fetched map.** Let a file be open that is intact, as any file is that was allocated,
on a disk where its sectors can be read, and let it be as long as the image of a map of `size`
sectors, with any contents. Then the map is fetched. Its bits are
those of the contents, and the sectors that are free can be taken one after the other. Their count,
by which volumes report and allocations are let in, is theirs less the number of set bits past the
last sector. It is right exactly if there is no such bit, it is too small otherwise, and it breaks off
if there are more of them than free sectors. The map in words counts the same.
-/
theorem fetched_maps_count_strays {disk : Disk} {f : OpenFile} {size : Nat}
    (hf : f.header.Intact disk.medium)
    (hread : disk.Readable (f.header.data disk.medium ++ f.header.index disk.medium))
    (hlen : f.length = SectorMap.imageSize size) :
    ∃ map disk', SectorMap.fetch f size disk = .ok map disk' ∧ disk'.medium = disk.medium ∧
      map.size = size ∧
      (∀ i < 8 * SectorMap.imageSize size, map.bit i
        = ((f.header.contents disk.medium).getD (i / 8) 0).toNat.testBit (i % 8)) ∧
      (∀ i, i ∈ map.free ↔ map.isMarked i = .ok false) ∧ map.free.Nodup ∧ map.Counted ∧
      (WordMap.ofImage size (f.header.contents disk.medium).toList).Packs map ∧
      (WordMap.ofImage size (f.header.contents disk.medium).toList).freeCount = map.freeCount ∧
      ∀ v : Volume, v.mapFile = f → disk.count = size → v.freeSectors disk
        = if map.strays ≤ map.free.length then .ok (map.free.length - map.strays) disk'
          else .error (.broken .arithmetic) disk' := by
  obtain ⟨m, count, p⟩ := disk
  obtain ⟨sectors, hsectors, hfollows⟩ :=
    @SectorMap.exists_follows_fetch _ _ count _ hf (Nat.le_of_eq hlen.symm)
  have hfetch := hfollows.eval_of_delivers (hread.delivers hsectors)
  have hpacks : (WordMap.ofImage size (f.header.contents m).toList).Packs
      (SectorMap.held m f.header size) :=
    WordMap.packs_ofImage (Nat.le_of_eq (Header.size_contents.trans hlen))
  refine ⟨_, _, hfetch, rfl, rfl, fun i hi => SectorMap.bit_ofImage _ _ hi,
    fun _ => SectorMap.mem_free_iff_isMarked, SectorMap.nodup_free _, SectorMap.counted _, hpacks,
    hpacks.freeCount_eq, ?_⟩
  rintro v rfl rfl
  exact Volume.freeSectors_eq hfetch

theorem exists_file_of_two (bytes : Array UInt8) (hbytes : bytes.size = 2) {n : Nat} (hn : 1 ≤ n)
    (hsmall : n ≤ 0x80000000) : ∃ (m : Medium) (f : OpenFile), f.header.Allocated (.empty n) 2 m ∧
      f.header.Intact m ∧
      Disk.Readable ⟨m, n, {}⟩ (f.header.data m ++ f.header.index m) ∧ f.length = 2 ∧
      f.header.contents m = bytes := by
  obtain ⟨m, h, hf, hh, hsep, hlength, hlt, hsize⟩ :=
    Header.exists_allocated 2 n (by decide) hn hsmall
  have hindex := fun s (hs : s ∈ h.index m) => Header.index_writeScript 0 bytes hh hsep hs
  refine ⟨(h.writeScript m 0 bytes).medium m, { sector := 0, header := h }, hf.congr hindex,
    hh.congr hindex, ?_, hlength, ?_⟩
  · rw [Header.data_congr hindex, Header.index_congr hindex]
    exact Disk.readable_default hlt (Nat.le_trans hsize (Script.le_size_medium ..))
  · rw [Header.contents_writeScript 0 bytes hh hsep]
    exact Bytes.overlay_zero_of_size_eq (by rw [hbytes, Header.size_contents, hlength])

/-- Of nine sectors one is free. The seven bits behind them are set, and the count breaks off. -/
theorem fetched_maps_count_strays_nine : ∃ (disk disk' : Disk) (f : OpenFile) (map : SectorMap),
    f.header.Intact disk.medium ∧
    disk.Readable (f.header.data disk.medium ++ f.header.index disk.medium) ∧
    f.length = SectorMap.imageSize 9 ∧ SectorMap.fetch f 9 disk = .ok map disk' ∧ map.free = [8] ∧
    map.strays = 7 ∧ map.freeCount = .error .arithmetic ∧
    Volume.freeSectors ⟨f, f⟩ disk = .error (.broken .arithmetic) disk' := by
  obtain ⟨m, f, -, hf, hread, hlen, hcontents⟩ := exists_file_of_two #[0xFF, 0xFE] rfl
    (show 1 ≤ 9 by decide) (by decide)
  obtain ⟨map, disk', hfetch, -, hsize, hbits, -, -, hcounted, -, -, hreport⟩ :=
    @fetched_maps_count_strays ⟨m, 9, {}⟩ f 9 hf hread hlen
  obtain rfl : map = SectorMap.ofImage 9 #[0xFF, 0xFE] := by
    refine SectorMap.ext_bit hsize fun i => ?_
    by_cases hi : i < 8 * SectorMap.imageSize 9
    · rw [hbits i hi, hcontents, SectorMap.bit_ofImage _ _ hi]
    · have hi := Nat.le_of_not_lt hi
      rw [SectorMap.bit_of_le (hsize ▸ hi), SectorMap.bit_of_le hi]
  have hfree : (SectorMap.ofImage 9 #[0xFF, 0xFE]).free = [8] := by decide +kernel
  have hstrays : (SectorMap.ofImage 9 #[0xFF, 0xFE]).strays = 7 := by decide +kernel
  have hover : ¬ (SectorMap.ofImage 9 #[0xFF, 0xFE]).strays
      ≤ (SectorMap.ofImage 9 #[0xFF, 0xFE]).free.length := by
    rw [hfree, hstrays]
    decide
  refine ⟨⟨m, 9, {}⟩, disk', f, _, hf, hread, hlen, hfetch, hfree, hstrays, ?_, ?_⟩
  · rw [hcounted.freeCount_eq, if_neg hover]
  · rw [hreport ⟨f, f⟩ rfl rfl, if_neg hover]

/-- Of a map of sixteen sectors the last four are in use. Where it is taken for one of twelve sectors,
all of which are free, eight are counted. -/
theorem counted_less_than_free : ∃ (disk disk' : Disk) (f : OpenFile) (map : SectorMap),
    f.header.Allocated (.empty 12) 2 disk.medium ∧
    disk.Readable (f.header.data disk.medium ++ f.header.index disk.medium) ∧
    f.length = SectorMap.imageSize 12 ∧ SectorMap.fetch f 12 disk = .ok map disk' ∧
    f.header.contents disk.medium = ((SectorMap.empty 16).setAll [12, 13, 14, 15] true).image ∧
    (∀ i < 12, map.isMarked i = .ok false) ∧ map.freeCount = .ok 8 := by
  have hsize : ((SectorMap.empty 16).setAll [12, 13, 14, 15] true).image.size = 2 := by
    rw [SectorMap.size_image, SectorMap.size_setAll, SectorMap.size_empty]
    rfl
  obtain ⟨m, f, hf, hintact, hread, hlen, hcontents⟩ := exists_file_of_two _ hsize
    (show 1 ≤ 12 by decide) (by decide)
  obtain ⟨sectors, hsectors, hfollows⟩ :=
    @SectorMap.exists_follows_fetch _ _ 12 12 hintact (Nat.le_of_eq hlen.symm)
  have hfetch := hfollows.eval_of_delivers (p := {}) (hread.delivers hsectors)
  rw [SectorMap.held, hcontents] at hfetch
  have hclear : ∀ i < 12, (SectorMap.ofImage 12
      ((SectorMap.empty 16).setAll [12, 13, 14, 15] true).image).isMarked i = .ok false := by
    decide +kernel
  have hcount : (SectorMap.ofImage 12
      ((SectorMap.empty 16).setAll [12, 13, 14, 15] true).image).freeCount = .ok 8 := by
    decide +kernel
  exact ⟨⟨m, 12, {}⟩, _, f, _, hf, hread, hlen, hfetch, hcontents, hclear, hcount⟩

end IndexedDisk
