import IndexedDisk.Header.Release
import IndexedDisk.Proofs.Drawing
import Mathlib.Data.List.Sort

/-!
# Sector numbers that pointers cannot hold

An allocation puts the number of each sector that it draws into a pointer of 32 bits, without a look
at its size. A number from `2 ^ 31` on becomes a negative pointer, which leads past the end of any
disk, and numbers that differ by `2 ^ 32` become the same pointer. A map has to be large for that:
all sectors below the one that is drawn are in use.

* `SectorMap.fullBut`: such maps, by their free sectors.
* `Header.allocate_direct`: a file without index blocks is allocated all the same.
* `Header.deallocate_of_negative`: it may be impossible to give back.
-/

namespace IndexedDisk

/-- A number between `2 ^ 31` and `2 ^ 32` is widened to one past all sectors. -/
theorem Word.wide_ofNat_of_negative {n : Nat} (h : 0x80000000 ≤ n) (h' : n < 0x100000000) :
    wide (ofNat n) = 0xFFFFFFFF00000000 + n := by
  have hn : (ofNat n).toInt = n - 0x100000000 := by
    rw [ofNat, Int32.toInt_ofNat', Int.bmod_def]
    simp only [Int32.size]
    split <;> omega
  rw [wide, hn]
  omega

namespace SectorMap

/-- The map of `size` sectors of which only the given ones are free. -/
def fullBut (size : Nat) (sectors : List Nat) : SectorMap :=
  ⟨size, Array.ofFn fun i : Fin (8 * imageSize size) =>
    decide (i.val < size ∧ i.val ∉ sectors), by simp⟩

variable {size : Nat} {sectors : List Nat}

@[simp] theorem size_fullBut : (fullBut size sectors).size = size := rfl

theorem bit_fullBut (i : Nat) :
    (fullBut size sectors).bit i = decide (i < size ∧ i ∉ sectors) := by
  by_cases hi : i < 8 * imageSize size
  · simp [bit, fullBut, Array.getD_eq_getD_getElem?, hi]
  · rw [imageSize] at hi
    rw [bit_of_le (by rw [size_fullBut, imageSize]; omega), decide_eq_false (by omega)]

theorem tidy_fullBut : (fullBut size sectors).Tidy := by
  intro i hi
  rw [size_fullBut] at hi
  rw [bit_fullBut, decide_eq_false (by omega)]

theorem free_fullBut (hsorted : sectors.Pairwise (· < ·)) (hlt : ∀ i ∈ sectors, i < size) :
    (fullBut size sectors).free = sectors := by
  refine (sorted_free _).eq_of_mem_iff hsorted fun i => ?_
  rw [mem_free, bit_fullBut, size_fullBut]
  refine ⟨fun ⟨hi, hbit⟩ => ?_, fun hi => ⟨hlt i hi, decide_eq_false fun h => h.2 hi⟩⟩
  exact Decidable.not_not.mp fun hnot => of_decide_eq_false hbit ⟨hi, hnot⟩

end SectorMap

namespace Supply

variable {m : Medium} {count : Nat} {s : Supply}

/-- Without index blocks there is nothing to write, and the numbers do not matter. -/
theorem follows_fill_direct {size : Nat} (hdirect : sectorsFor size ≤ directPointers)
    (hroom : sectorsFor size ≤ s.map.free.length) :
    Follows m count (Disk.runOn s (fill size)) []
      (.ok (Header.planned size s.map.free, s.after (sectorsFor size))) := by
  have hdouble : sectorsFor size < directPointers + blockPointers :=
    Nat.lt_of_le_of_lt hdirect (by decide)
  rw [fill_eq, Header.planned]
  generalize sectorsFor size = n at *
  have hmin : min n directPointers = n := Nat.min_eq_left hdirect
  rw [if_pos (Nat.sub_eq_zero_of_le hdirect), if_pos (by simp only [blockPointers] at *; omega),
    if_pos hdirect, if_pos hdouble, hmin]
  refine Follows.of_script (Follows.runOn_bind (follows_drawMany n hroom) ?_) (List.nil_append _)
  refine Follows.runOn_bind (Follows.runOn_pure _ _) ?_
  exact Follows.runOn_bind (Follows.runOn_pure _ _) (Follows.runOn_pure _ _)

/-- An empty double block goes where its pointer leads. -/
theorem follows_fillDouble_zero (size : Nat) {i : Nat} {rest : List Nat}
    (hfree : s.map.free = i :: rest) :
    Follows m count (Disk.runOn s (fillDouble size 0))
      [.write (Word.wide (Word.ofNat i)) (IndexBlock.ofList []).toSector]
      (.ok (Word.ofNat i, s.after 1)) := by
  have hchildren {s : Supply} : Follows m count (Disk.runOn s (fillChildren size 0 0)) []
      (.ok ([], s)) := by
    rw [fillChildren, if_pos rfl]
    exact Follows.runOn_pure _ _
  refine Follows.of_script (Follows.runOn_bind (follows_draw hfree) ?_) (List.nil_append _)
  refine Follows.runOn_bind hchildren ?_
  exact Follows.runOn_bind (Follows.runOn_lift (Follows.writeSector _ _)) (Follows.runOn_pure _ _)

/-- Where the pointers to both blocks are the same, the full single block is lost to the empty double
block, which is written after it. -/
theorem follows_fill_overlaid (hfree : s.map.free = List.range 60 ++ [0x10000001C]) :
    Follows m count (Disk.runOn s (fill 7552))
      [Header.blockWrite (s.map.free.drop 28) 31, .write 28 (IndexBlock.ofList []).toSector]
      (.ok (Header.planned 7552 s.map.free, s.after 61)) := by
  have hlength : s.map.free.length = 61 := by rw [hfree]; rfl
  have hlast : ((s.after 28).after 32).map.free = [0x10000001C] := by
    rw [after_after, free_after, hfree]
    rfl
  have hdirect : Follows m count _ _ _ := follows_drawMany (s := s) 28 (by omega)
  have hsingle {m : Medium} : Follows m count _ _ _ := follows_fillSingle (s := s.after 28) (n := 31)
    (by rw [free_after, List.length_drop]; omega) (by rw [free_after, hfree]; decide)
  have hdouble {m : Medium} : Follows m count _ _ _ := follows_fillDouble_zero 7552 hlast
  have hpointer : Word.ofNat 0x10000001C = Word.ofNat (s.map.free.getD 60 0) := by
    rw [hfree]
    rfl
  have hwide : Word.wide (Word.ofNat 0x10000001C) = 28 := by decide
  rw [free_after, getD_drop] at hsingle
  rw [hwide, hpointer, after_after, after_after] at hdouble
  have hn : sectorsFor 7552 = 59 := rfl
  rw [fill_eq, Header.planned, hn, if_neg (by decide), if_neg (by decide), if_neg (by decide),
    if_neg (by decide)]
  refine Follows.of_script (Follows.runOn_bind hdirect ?_) (List.nil_append _)
  refine Follows.runOn_bind hsingle ?_
  rw [after_after]
  exact Follows.runOn_bind hdouble (Follows.runOn_pure _ _)

end Supply

namespace Header

/-! ## Files without index blocks -/

section Direct

variable {size : Nat} {l : List Nat} (hdirect : sectorsFor size ≤ directPointers)
include hdirect

theorem le_of_direct : size ≤ maxFileSize := by
  simp only [sectorsFor, maxFileSize, maxFileSectors, sectorSize, directPointers,
    blockPointers] at *
  omega

theorem single?_planned_direct : (planned size l).single? = none :=
  single?_eq_none (if_pos hdirect)

theorem double?_planned_direct : (planned size l).double? = none :=
  double?_eq_none (if_pos (Nat.lt_of_le_of_lt hdirect (by decide)))

theorem dataPointers_planned_direct (hroom : sectorsFor size ≤ l.length) (m : Medium) :
    (planned size l).dataPointers m = (l.take (sectorsFor size)).map Word.ofNat := by
  have hmin : min (sectorsFor size) directPointers = sectorsFor size := Nat.min_eq_left hdirect
  have hs := directSectors_planned (le_of_direct hdirect) (l := l) (hmin.symm ▸ hroom)
  rw [hmin] at hs
  rw [dataPointers, hs, singlePointers, single?_planned_direct hdirect, doublePointers, children,
    double?_planned_direct hdirect]
  simp

theorem indexPointers_planned_direct (m : Medium) : (planned size l).indexPointers m = [] := by
  rw [indexPointers, single?_planned_direct hdirect, children, double?_planned_direct hdirect]
  rfl

theorem intact_planned_direct (m : Medium) : (planned size l).Intact m := by
  have hsize := le_of_direct hdirect
  have hsectors := sectors_planned (l := l) hsize
  have hle : (planned size l).sectors ≤ directPointers := hsectors ▸ hdirect
  have hlt : (planned size l).sectors < directPointers + blockPointers :=
    Nat.lt_of_le_of_lt hle (by decide)
  exact {
    length_le := by
      rw [length_planned hsize]
      exact hsize
    sectors_eq := by rw [hsectors, length_planned hsize]
    single_none := fun _ => if_pos hdirect
    single_some := fun h => absurd h (Nat.not_lt.mpr hle)
    single_count := fun h => absurd h (Nat.not_lt.mpr hle)
    double_none := fun _ => if_pos (Nat.lt_of_le_of_lt hdirect (by decide))
    double_some := fun h => absurd hlt (Nat.not_lt.mpr h)
    double_count := fun h => absurd hlt (Nat.not_lt.mpr h)
    child_count := fun q c hc => by
      rw [children, double?_planned_direct hdirect] at hc
      cases hc }

end Direct

variable {map : SectorMap}

theorem allocate_direct (size : Nat) (hmap : map.Tidy)
    (hdirect : sectorsFor size ≤ directPointers) (hroom : sectorsFor size ≤ map.free.length) (disk : Disk) (h : Header) :
    allocate size ⟨disk, map, h⟩ = .ok ()
      ⟨disk, map.setAll (map.free.take (sectorsFor size)) true, planned size map.free⟩ := by
  obtain ⟨m, count, p⟩ := disk
  have hindex : sectorsFor size + indexBlocksFor (sectorsFor size) = sectorsFor size := by
    rw [indexBlocksFor, if_pos hdirect, Nat.add_zero]
  have hsize : size ≤ maxFileSize := by
    simp only [sectorsFor, maxFileSize, maxFileSectors, sectorSize, directPointers,
      blockPointers] at *
    omega
  have hrun := follows_allocate_of_fill (h := h) hsize (SectorMap.freeCount_eq hmap)
    (hindex.symm ▸ hroom) (@Supply.follows_fill_direct m count ⟨map, []⟩ size hdirect hroom) p
  exact Disk.eq_ok_of_runOn hrun

theorem deallocate_of_negative {n : Nat} (hn : 0x80000000 ≤ n) (hn' : n < 0x100000000)
    (hmap : map.size ≤ 0xFFFFFFFF00000000) (disk : Disk) :
    deallocate ⟨disk, map, planned 1 [n]⟩ = .error
      (.broken (.outsideMap (0xFFFFFFFF00000000 + n))) ⟨disk, map, planned 1 [n]⟩ := by
  have hdirect : (planned 1 [n]).directSectors = [Word.ofNat n] :=
    directSectors_planned (by decide) (Nat.le_refl 1)
  have hrelease : map.release (Word.wide (Word.ofNat n))
      = .error (.outsideMap (0xFFFFFFFF00000000 + n)) := by
    rw [Word.wide_ofNat_of_negative hn hn', SectorMap.release, if_neg (by omega)]
  have hback : giveBackAll (planned 1 [n]).directSectors ⟨disk, map, planned 1 [n]⟩ = .error
      (.broken (.outsideMap (0xFFFFFFFF00000000 + n))) ⟨disk, map, planned 1 [n]⟩ := by
    rw [hdirect, giveBackAll, bind_apply, giveBack, hrelease]
  rw [deallocate, bind_apply, current]
  dsimp only
  rw [bind_apply, hback]

end Header

end IndexedDisk
