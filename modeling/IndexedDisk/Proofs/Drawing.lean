import IndexedDisk.Header.Allocation
import IndexedDisk.Proofs.Contents
import IndexedDisk.Proofs.Free

/-!
# Drawing sectors

Which sectors an allocation draws is fixed by the list of free sectors before anything is written:
the direct sectors are its first 28, then come the single block and its sectors, the double block,
and each child block with its sectors. `Header.planned` is the header that comes of it and
`Header.fillScript` the blocks that are written on the way.

* `Supply.follows_fill`: the allocation follows the plan.
* `Header.intact_planned`: the header is intact once its blocks are written.
* `Header.perm_planned`: its sectors are the lowest free ones, each of them once.
-/

namespace IndexedDisk

namespace Script

/-- The medium holds all that the script writes. -/
def Held (script : Script) (m : Medium) : Prop :=
  ∀ s bytes, .write s bytes ∈ script → m.get s = bytes

theorem held_medium {script : Script} (h : script.targets.Nodup) (m : Medium) :
    script.Held (script.medium m) :=
  fun _ _ hmem => get_medium_of_mem h hmem m

theorem Held.congr {script : Script} {m m' : Medium} (h : script.Held m)
    (hm : ∀ s ∈ script.targets, m'.get s = m.get s) : script.Held m' := by
  intro s bytes hmem
  rw [hm s (mem_targets hmem)]
  exact h s bytes hmem

theorem Held.get_eq {script : Script} {m m' : Medium} (h : script.Held m) (h' : script.Held m')
    {s : Nat} (hs : s ∈ script.targets) : m'.get s = m.get s := by
  obtain ⟨bytes, hbytes⟩ := exists_write_of_mem_targets hs
  rw [h s bytes hbytes, h' s bytes hbytes]

theorem held_append {a b : Script} {m : Medium} : (a ++ b).Held m ↔ a.Held m ∧ b.Held m := by
  simp only [Held, List.mem_append]
  exact ⟨fun h => ⟨fun s x hx => h s x (Or.inl hx), fun s x hx => h s x (Or.inr hx)⟩,
    fun h s x hx => hx.elim (h.1 s x) (h.2 s x)⟩

end Script

namespace IndexBlock

theorem wide_count_ofList {sectors : List Int32} (h : sectors.length ≤ 31) :
    Word.wide (ofList sectors).count = sectors.length :=
  Word.wide_ofNat (by omega)

theorem named_ofList {sectors : List Int32} (h : sectors.length ≤ 31) :
    (ofList sectors).named = sectors := by
  apply List.ext_getElem?
  intro i
  rw [named, wide_count_ofList h, List.getElem?_take, Vector.getElem?_toList, ofList,
    Vector.getElem?_ofFn]
  by_cases hi : i < sectors.length
  · rw [if_pos hi, dif_pos (by omega), List.getD_eq_getElem?_getD, List.getElem?_eq_getElem hi,
      Option.getD_some]
  · rw [if_neg hi, List.getElem?_eq_none (by omega)]

end IndexBlock

theorem Word.map_wide_ofNat {l : List Nat} (h : ∀ i ∈ l, i < 0x80000000) :
    (l.map Word.ofNat).map Word.wide = l := by
  rw [List.map_map]
  exact (List.map_congr_left fun i hi => Word.wide_ofNat (h i hi)).trans (List.map_id l)

theorem Word.ofNat_ne_noSector {n : Nat} (h : n < 0x80000000) : Word.ofNat n ≠ noSector := by
  intro heq
  have hwide := Word.wide_ofNat h
  rw [heq] at hwide
  have : Word.wide noSector = 0xFFFFFFFFFFFFFFFF := by decide
  omega

/-! ## The plan -/

namespace Header

/-- The write of the block at the head of the list that names the `n` sectors after it. -/
def blockWrite (l : List Nat) (n : Nat) : Transfer :=
  .write (l.headD 0) (IndexBlock.ofList (((l.drop 1).take n).map Word.ofNat)).toSector

/-- `k` child blocks, each with room for its sectors after it. -/
def childBlocks : Nat → List Nat → List Nat
  | 0, _ => []
  | k + 1, l => l.headD 0 :: childBlocks k (l.drop (blockPointers + 1))

/-- The `rest` sectors that `k` child blocks name. -/
def childData : Nat → Nat → List Nat → List Nat
  | 0, _, _ => []
  | k + 1, rest, l => (l.drop 1).take (min rest blockPointers)
      ++ childData k (rest - blockPointers) (l.drop (blockPointers + 1))

/-- The writes of `k` child blocks that name `rest` sectors. -/
def childScript : Nat → Nat → List Nat → Script
  | 0, _, _ => []
  | k + 1, rest, l => blockWrite l (min rest blockPointers)
      :: childScript k (rest - blockPointers) (l.drop (blockPointers + 1))

/-- Child blocks for `rest` sectors. -/
def childCount (rest : Nat) : Nat := (rest + (blockPointers - 1)) / blockPointers

/-- The double block, which names the child blocks after it. -/
def doubleScript (rest : Nat) (l : List Nat) : Script :=
  childScript (childCount rest) rest (l.drop 1) ++ [.write (l.headD 0)
    (IndexBlock.ofList ((childBlocks (childCount rest) (l.drop 1)).map Word.ofNat)).toSector]

/-- The blocks of a file of `n` sectors. -/
def fillScript (n : Nat) (l : List Nat) : Script :=
  (if n ≤ directPointers then []
    else [blockWrite (l.drop 28) (min (n - directPointers) blockPointers)])
  ++ if n < directPointers + blockPointers then []
    else doubleScript (n - directPointers - blockPointers) (l.drop 60)

/-- The header of a file of `size` bytes whose sectors are the first ones of a list. -/
def planned (size : Nat) (l : List Nat) : Header :=
  let n := sectorsFor size
  { byteCount := Word.ofNat size
    sectorCount := Word.ofNat n
    direct := Vector.ofFn fun i =>
      ((l.take (min n directPointers)).map Word.ofNat).getD i.val noSector
    single := if n ≤ directPointers then noSector else Word.ofNat (l.getD 28 0)
    double := if n < directPointers + blockPointers then noSector else Word.ofNat (l.getD 60 0) }

/-- The data sectors of a file of `n` sectors, in order. -/
def plannedData (n : Nat) (l : List Nat) : List Nat :=
  l.take (min n directPointers) ++ (l.drop 29).take (min (n - directPointers) blockPointers)
    ++ childData (childCount (n - directPointers - blockPointers))
      (n - directPointers - blockPointers) (l.drop 61)

/-- The index blocks of a file of `n` sectors. -/
def plannedIndex (n : Nat) (l : List Nat) : List Nat :=
  (if n ≤ directPointers then [] else [l.getD 28 0])
    ++ (if n < directPointers + blockPointers then [] else [l.getD 60 0])
    ++ childBlocks (childCount (n - directPointers - blockPointers)) (l.drop 61)

/-- Sectors that the single tier of a file of `n` sectors takes up. -/
def singleRoom (n : Nat) : Nat :=
  if n ≤ directPointers then 0 else min (n - directPointers) blockPointers + 1

/-- Sectors that the double tier of a file of `n` sectors takes up. -/
def doubleRoom (n : Nat) : Nat :=
  if n < directPointers + blockPointers then 0
  else n - directPointers - blockPointers + 1 + childCount (n - directPointers - blockPointers)

theorem sum_rooms (n : Nat) :
    min n directPointers + singleRoom n + doubleRoom n = n + indexBlocksFor n := by
  simp only [singleRoom, doubleRoom, childCount, indexBlocksFor, directPointers, blockPointers]
  split <;> split <;> omega

theorem singleRoom_of_full {n : Nat} (h : directPointers + blockPointers ≤ n) :
    min n directPointers + singleRoom n = 60 := by
  simp only [singleRoom, directPointers, blockPointers] at *
  split <;> omega

theorem sectorsFor_le {size : Nat} (h : size ≤ maxFileSize) :
    sectorsFor size ≤ maxFileSectors := by
  simp only [sectorsFor, maxFileSize, maxFileSectors, sectorSize, directPointers,
    blockPointers] at *
  omega

/-- A file of `size` bytes can be made of the sectors in a list. -/
structure Fits (size : Nat) (l : List Nat) : Prop where
  size_le : size ≤ maxFileSize
  room : sectorsFor size + indexBlocksFor (sectorsFor size) ≤ l.length
  small : ∀ i ∈ l, i < 0x80000000
  nodup : l.Nodup

namespace Fits

variable {size : Nat} {l : List Nat}

theorem sectors_le (h : Fits size l) : sectorsFor size ≤ maxFileSectors :=
  sectorsFor_le h.size_le

theorem take (h : Fits size l) :
    Fits size (l.take (sectorsFor size + indexBlocksFor (sectorsFor size))) where
  size_le := h.size_le
  room := by
    rw [List.length_take]
    exact Nat.le_min.mpr ⟨Nat.le_refl _, h.room⟩
  small i hi := h.small i (List.mem_of_mem_take hi)
  nodup := h.nodup.sublist (List.take_sublist ..)

theorem room_of_take
    (h : Fits size (l.take (sectorsFor size + indexBlocksFor (sectorsFor size)))) :
    sectorsFor size + indexBlocksFor (sectorsFor size) ≤ l.length := by
  have hroom := h.room
  rw [List.length_take] at hroom
  omega

end Fits

/-! ### What the plan depends on -/

theorem headD_take {l : List Nat} {j : Nat} (h : 0 < j) : (l.take j).headD 0 = l.headD 0 := by
  obtain ⟨j, rfl⟩ := Nat.exists_eq_add_of_le' h
  cases l <;> rfl

theorem drop_take_of_le {l : List Nat} {i n j : Nat} (h : i + n ≤ j) :
    ((l.take j).drop i).take n = (l.drop i).take n := by
  rw [List.drop_take, List.take_take, Nat.min_eq_left (by omega)]

theorem blockWrite_take {l : List Nat} {n j : Nat} (h : n < j) :
    blockWrite (l.take j) n = blockWrite l n := by
  rw [blockWrite, blockWrite, headD_take (by omega), drop_take_of_le (by omega)]

theorem childScript_take {k rest : Nat} (hk : k = childCount rest) (l : List Nat) :
    childScript k rest (l.take (rest + k)) = childScript k rest l := by
  simp only [childCount, blockPointers] at hk
  induction k generalizing rest l with
  | zero => rfl
  | succ k ih =>
    rw [childScript, childScript, blockWrite_take (by simp only [blockPointers]; omega),
      List.drop_take]
    -- the last child may name fewer sectors, but then no child comes after it
    obtain rfl | hfull : k = 0 ∨ 31 ≤ rest := by omega
    · rfl
    · have hlen : rest + (k + 1) - (blockPointers + 1) = rest - blockPointers + k := by
        simp only [blockPointers]
        omega
      rw [hlen, ih (by simp only [blockPointers]; omega)]

theorem targets_childScript (k rest : Nat) (l : List Nat) :
    (childScript k rest l).targets = childBlocks k l := by
  induction k generalizing rest l with
  | zero => rfl
  | succ k ih =>
    rw [childScript, childBlocks, ← ih (rest - blockPointers)]
    rfl

theorem childBlocks_take {k rest : Nat} (hk : k = childCount rest) (l : List Nat) :
    childBlocks k (l.take (rest + k)) = childBlocks k l := by
  rw [← targets_childScript k rest, childScript_take hk, targets_childScript]

/-- The last child may name fewer sectors, but then no child comes after it. -/
theorem childScript_drop {k rest : Nat} (hk : k = 0 ∨ blockPointers ≤ rest) (l : List Nat) :
    childScript k (rest - min rest blockPointers) (l.drop (min rest blockPointers))
      = childScript k (rest - blockPointers) (l.drop blockPointers) := by
  rcases hk with rfl | hfull
  · rfl
  · rw [Nat.min_eq_right hfull]

theorem childBlocks_drop {k rest : Nat} (hk : k = 0 ∨ blockPointers ≤ rest) (l : List Nat) :
    childBlocks k (l.drop (min rest blockPointers)) = childBlocks k (l.drop blockPointers) := by
  rw [← targets_childScript k (rest - min rest blockPointers), childScript_drop hk,
    targets_childScript]

theorem doubleScript_take {rest j : Nat} (hj : j = rest + childCount rest) (l : List Nat) :
    doubleScript rest (l.take (1 + j)) = doubleScript rest l := by
  subst hj
  rw [doubleScript, doubleScript, headD_take (by omega), List.drop_take, Nat.add_sub_cancel_left,
    childScript_take rfl, childBlocks_take rfl]

/-- The plan is made of the sectors that the file takes and no others. -/
theorem fillScript_take (n : Nat) (l : List Nat) :
    fillScript n (l.take (n + indexBlocksFor n)) = fillScript n l := by
  rw [fillScript, fillScript, indexBlocksFor]
  by_cases hs : n ≤ directPointers
  · have hd : n < directPointers + blockPointers := Nat.lt_of_le_of_lt hs (by decide)
    simp only [if_pos hs, if_pos hd]
  by_cases hd : n < directPointers + blockPointers
  · rw [if_neg hs, if_neg hs, if_neg hs, if_pos hd, if_pos hd, if_pos hd, List.drop_take,
      blockWrite_take (by simp only [directPointers, blockPointers] at *; omega)]
  · have hlen : n + (2 + (n - directPointers - blockPointers + (blockPointers - 1)) / blockPointers)
        - 60 = 1 + (n - directPointers - blockPointers
          + childCount (n - directPointers - blockPointers)) := by
      simp only [childCount, directPointers, blockPointers] at *
      omega
    rw [if_neg hs, if_neg hs, if_neg hs, if_neg hd, if_neg hd, if_neg hd, List.drop_take,
      List.drop_take, hlen, doubleScript_take rfl,
      blockWrite_take (by simp only [directPointers, blockPointers] at *; omega)]

theorem getD_take {l : List Nat} {i j : Nat} (h : i < j) : (l.take j).getD i 0 = l.getD i 0 := by
  rw [List.getD_eq_getElem?_getD, List.getD_eq_getElem?_getD, List.getElem?_take_of_lt h]

theorem planned_take (size : Nat) (l : List Nat) :
    planned size (l.take (sectorsFor size + indexBlocksFor (sectorsFor size))) = planned size l := by
  rw [planned, planned]
  generalize sectorsFor size = n
  rw [List.take_take, Nat.min_eq_left (by omega), indexBlocksFor]
  by_cases hs : n ≤ directPointers
  · have hd : n < directPointers + blockPointers := Nat.lt_of_le_of_lt hs (by decide)
    simp only [if_pos hs, if_pos hd]
  by_cases hd : n < directPointers + blockPointers
  · rw [if_neg hs, if_neg hs, if_neg hs, if_pos hd, if_pos hd, if_pos hd,
      getD_take (by simp only [directPointers, blockPointers] at *; omega)]
  · rw [if_neg hs, if_neg hs, if_neg hs, if_neg hd, if_neg hd, if_neg hd,
      getD_take (by simp only [directPointers, blockPointers] at *; omega),
      getD_take (by simp only [directPointers, blockPointers] at *; omega)]

end Header

/-! ## Drawing by the plan -/

namespace Supply

/-- The supply once its `n` lowest free sectors are drawn. -/
def after (s : Supply) (n : Nat) : Supply :=
  ⟨s.map.setAll (s.map.free.take n) true, (s.map.free.take n).reverse ++ s.drawn⟩

@[simp] theorem after_zero (s : Supply) : s.after 0 = s := rfl

theorem free_after (s : Supply) (n : Nat) : (s.after n).map.free = s.map.free.drop n :=
  SectorMap.free_setAll s.map n

theorem after_after (s : Supply) (a b : Nat) : (s.after a).after b = s.after (a + b) := by
  simp only [after, SectorMap.free_setAll, List.take_add, SectorMap.setAll_append,
    List.reverse_append, List.append_assoc]

variable {m : Medium} {count : Nat} {s : Supply}

theorem follows_draw {i : Nat} {rest : List Nat} (h : s.map.free = i :: rest) :
    Follows m count (Disk.runOn s draw) [] (.ok (Word.ofNat i, s.after 1)) := by
  obtain ⟨map, drawn⟩ := s
  have hafter : (⟨map, drawn⟩ : Supply).after 1 = ⟨map.setBit i true, i :: drawn⟩ := by
    simp only [after, h]
    rfl
  intro p
  simp only [Disk.runOn, draw, SectorMap.take_eq h, hafter]
  rfl

theorem follows_drawMany (n : Nat) (h : n ≤ s.map.free.length) :
    Follows m count (Disk.runOn s (drawMany n)) []
      (.ok ((s.map.free.take n).map Word.ofNat, s.after n)) := by
  induction n generalizing s with
  | zero => exact Follows.runOn_pure _ _
  | succ n ih =>
    obtain ⟨i, rest, hfree⟩ := List.exists_cons_of_length_pos (Nat.lt_of_lt_of_le n.succ_pos h)
    have hrest : (s.after 1).map.free = rest := by rw [free_after, hfree]; rfl
    have hlen : n ≤ (s.after 1).map.free.length := by
      rw [hfree, List.length_cons] at h
      rw [hrest]
      omega
    have hn := ih hlen
    rw [hrest, after_after, Nat.add_comm] at hn
    rw [hfree]
    exact Follows.runOn_bind (follows_draw hfree) (Follows.runOn_bind hn (Follows.runOn_pure _ _))

theorem follows_fillBlock {l : List Nat} {i : Nat} {n : Nat} (hl : l = i :: s.map.free)
    (h : n ≤ s.map.free.length) (hi : i < 0x80000000) :
    Follows m count (Disk.runOn s (fillBlock (Word.ofNat i) n)) [Header.blockWrite l n]
      (.ok ((), s.after n)) := by
  subst hl
  have hstore : Follows m count
      ((IndexBlock.ofList ((s.map.free.take n).map Word.ofNat)).store (Word.ofNat i))
      [Header.blockWrite (i :: s.map.free) n] (.ok ()) := by
    unfold IndexBlock.store
    rw [Word.wide_ofNat hi]
    exact Follows.writeSector _ _
  exact Follows.runOn_bind (follows_drawMany n h) (Follows.runOn_lift hstore)

theorem lt_of_mem_free_after {b n k l : Nat} (hsmall : ∀ i ∈ s.map.free.take l, i < b)
    (hl : n + k ≤ l) : ∀ i ∈ (s.after n).map.free.take k, i < b := by
  intro i hi
  rw [free_after, List.take_drop] at hi
  exact hsmall i (List.take_subset_take_left _ hl (List.mem_of_mem_drop hi))

theorem head_lt {b l i : Nat} {rest : List Nat} (hsmall : ∀ i ∈ s.map.free.take l, i < b)
    (hfree : s.map.free = i :: rest) (hl : 0 < l) : i < b := by
  obtain ⟨l, rfl⟩ := Nat.exists_eq_add_of_le' hl
  refine hsmall i ?_
  rw [hfree, List.take_succ_cons]
  exact List.mem_cons_self ..

theorem follows_fillChildren (size : Nat) {k rest named : Nat} (hk : k = Header.childCount rest)
    (hnamed : named + k ≤ blockPointers) (h : rest + k ≤ s.map.free.length)
    (hsmall : ∀ i ∈ s.map.free.take (rest + k), i < 0x80000000) :
    Follows m count (Disk.runOn s (fillChildren size rest named))
      (Header.childScript k rest s.map.free)
      (.ok ((Header.childBlocks k s.map.free).map Word.ofNat, s.after (rest + k))) := by
  simp only [Header.childCount, blockPointers] at hk hnamed
  induction k generalizing m s rest named with
  | zero =>
    obtain rfl : rest = 0 := by omega
    rw [fillChildren, if_pos rfl]
    exact Follows.runOn_pure _ _
  | succ k ih =>
    obtain ⟨i, l, hfree⟩ := List.exists_cons_of_length_pos (show 0 < s.map.free.length by omega)
    have hl : (s.after 1).map.free = l := by rw [free_after, hfree]; rfl
    have hlen : rest + k ≤ l.length := by
      rw [hfree, List.length_cons] at h
      omega
    have hi : i < 0x80000000 := head_lt hsmall hfree (by omega)
    have hblock : Follows m count _ _ _ := follows_fillBlock (n := min rest blockPointers)
      (i := i) (s := s.after 1) rfl (by rw [hl]; omega) hi
    rw [hl, after_after] at hblock
    have hfree' : ((s.after (1 + min rest blockPointers))).map.free
        = l.drop (min rest blockPointers) := by
      rw [free_after, hfree, Nat.add_comm, List.drop_succ_cons]
    have hk' : k = (rest - min rest blockPointers + (31 - 1)) / 31 := by
      simp only [blockPointers]
      omega
    have hnamed' : named + 1 + k ≤ 31 := by omega
    have hrest := ih (m := Script.medium m [Header.blockWrite (i :: l) (min rest blockPointers)])
      (s := s.after (1 + min rest blockPointers)) hk' hnamed'
      (by simp only [hfree', List.length_drop]; omega) (lt_of_mem_free_after hsmall (by omega))
    have hfull : k = 0 ∨ blockPointers ≤ rest := by
      simp only [blockPointers]
      omega
    rw [hfree', Header.childScript_drop hfull, Header.childBlocks_drop hfull, after_after] at hrest
    have hcount : 1 + min rest blockPointers + (rest - min rest blockPointers + k)
        = rest + (k + 1) := by omega
    rw [hcount] at hrest
    rw [fillChildren, if_neg (by omega), if_neg (by simp only [blockPointers]; omega), hfree,
      Header.childScript, Header.childBlocks, List.drop_succ_cons, List.headD_cons, List.map_cons]
    refine Follows.of_script (Follows.runOn_bind (follows_draw hfree) ?_) (List.nil_append _)
    refine Follows.runOn_bind hblock ?_
    exact Follows.of_script (Follows.runOn_bind hrest (Follows.runOn_pure _ _)) (List.append_nil _)

theorem follows_fillSingle {n : Nat} (h : n + 1 ≤ s.map.free.length)
    (hsmall : ∀ i ∈ s.map.free.take (n + 1), i < 0x80000000) :
    Follows m count (Disk.runOn s (fillSingle n)) [Header.blockWrite s.map.free n]
      (.ok (Word.ofNat (s.map.free.getD 0 0), s.after (n + 1))) := by
  obtain ⟨i, l, hfree⟩ := List.exists_cons_of_length_pos (show 0 < s.map.free.length by omega)
  have hl : (s.after 1).map.free = l := by rw [free_after, hfree]; rfl
  have hlen : n ≤ l.length := by
    rw [hfree, List.length_cons] at h
    omega
  have hblock : Follows m count _ _ _ := follows_fillBlock (n := n) (i := i) (s := s.after 1)
    rfl (by rw [hl]; exact hlen) (head_lt hsmall hfree (by omega))
  rw [hl, after_after, Nat.add_comm 1 n] at hblock
  rw [hfree]
  exact Follows.runOn_bind (follows_draw hfree) (Follows.runOn_bind hblock (Follows.runOn_pure _ _))

theorem follows_fillDouble (size : Nat) {n : Nat} (hn : Header.childCount n ≤ blockPointers)
    (h : n + 1 + Header.childCount n ≤ s.map.free.length)
    (hsmall : ∀ i ∈ s.map.free.take (n + 1 + Header.childCount n), i < 0x80000000) :
    Follows m count (Disk.runOn s (fillDouble size n)) (Header.doubleScript n s.map.free)
      (.ok (Word.ofNat (s.map.free.getD 0 0), s.after (n + 1 + Header.childCount n))) := by
  obtain ⟨i, l, hfree⟩ := List.exists_cons_of_length_pos (show 0 < s.map.free.length by omega)
  have hl : (s.after 1).map.free = l := by rw [free_after, hfree]; rfl
  have hi : i < 0x80000000 := head_lt hsmall hfree (by omega)
  have hlen : n + Header.childCount n ≤ l.length := by
    rw [hfree, List.length_cons] at h
    omega
  have hchildren : Follows m count _ _ _ := follows_fillChildren size (s := s.after 1)
    (rfl : _ = Header.childCount n) (by omega : 0 + Header.childCount n ≤ blockPointers)
    (by rw [hl]; exact hlen) (lt_of_mem_free_after hsmall (by omega))
  have hcount : 1 + (n + Header.childCount n) = n + 1 + Header.childCount n := by omega
  rw [hl, after_after, hcount] at hchildren
  have hstore {m : Medium} : Follows m count
      ((IndexBlock.ofList ((Header.childBlocks (Header.childCount n) l).map Word.ofNat)).store
        (Word.ofNat i)) [.write i (IndexBlock.ofList ((Header.childBlocks
          (Header.childCount n) l).map Word.ofNat)).toSector] (.ok ()) := by
    unfold IndexBlock.store
    rw [Word.wide_ofNat hi]
    exact Follows.writeSector _ _
  rw [hfree]
  refine Follows.of_script (Follows.runOn_bind (follows_draw hfree) ?_) (List.nil_append _)
  refine Follows.runOn_bind hchildren ?_
  exact Follows.runOn_bind (Follows.runOn_lift hstore) (Follows.runOn_pure _ _)

theorem getD_drop (l : List Nat) (n : Nat) : (l.drop n).getD 0 0 = l.getD n 0 := by
  simp [List.getD_eq_getElem?_getD]

theorem fill_eq (size : Nat) : fill size =
    drawMany (min (sectorsFor size) directPointers) >>= fun direct =>
    (if sectorsFor size - directPointers = 0 then pure noSector
      else fillSingle (min (sectorsFor size - directPointers) blockPointers)) >>= fun single =>
    (if sectorsFor size - directPointers < blockPointers then pure noSector
      else fillDouble size (sectorsFor size - directPointers - blockPointers)) >>= fun double =>
    pure {
      byteCount := Word.ofNat size
      sectorCount := Word.ofNat (sectorsFor size)
      direct := Vector.ofFn fun i => direct.getD i.val noSector
      single
      double } := by
  refine congrArg (drawMany _ >>= ·) (funext fun direct => ?_)
  by_cases hs : sectorsFor size - directPointers = 0 <;>
    by_cases hd : sectorsFor size - directPointers < blockPointers <;>
    simp only [hs, hd, if_true, if_false] <;> rfl

theorem follows_singleTier {n : Nat} {l : List Nat}
    (hl : directPointers < n → s.map.free = l.drop directPointers)
    (h : Header.singleRoom n ≤ s.map.free.length)
    (hsmall : ∀ i ∈ s.map.free.take (Header.singleRoom n), i < 0x80000000) :
    Follows m count (Disk.runOn s (if n - directPointers = 0 then pure noSector
        else fillSingle (min (n - directPointers) blockPointers)))
      (if n ≤ directPointers then []
        else [Header.blockWrite (l.drop directPointers) (min (n - directPointers) blockPointers)])
      (.ok (if n ≤ directPointers then noSector else Word.ofNat (l.getD directPointers 0),
        s.after (Header.singleRoom n))) := by
  rw [Header.singleRoom] at h hsmall ⊢
  by_cases hs : n ≤ directPointers
  · rw [if_pos hs, if_pos hs, if_pos hs, if_pos (Nat.sub_eq_zero_of_le hs)]
    exact Follows.runOn_pure _ _
  · rw [if_neg hs] at h hsmall
    rw [if_neg hs, if_neg hs, if_neg hs, if_neg (by omega), ← hl (by omega), ← getD_drop,
      ← hl (by omega)]
    exact follows_fillSingle h hsmall

theorem follows_doubleTier (size : Nat) {n : Nat} {l : List Nat} (hn : n ≤ maxFileSectors)
    (hl : directPointers + blockPointers ≤ n → s.map.free = l.drop 60)
    (h : Header.doubleRoom n ≤ s.map.free.length)
    (hsmall : ∀ i ∈ s.map.free.take (Header.doubleRoom n), i < 0x80000000) :
    Follows m count (Disk.runOn s (if n - directPointers < blockPointers then pure noSector
        else fillDouble size (n - directPointers - blockPointers)))
      (if n < directPointers + blockPointers then []
        else Header.doubleScript (n - directPointers - blockPointers) (l.drop 60))
      (.ok (if n < directPointers + blockPointers then noSector else Word.ofNat (l.getD 60 0),
        s.after (Header.doubleRoom n))) := by
  rw [Header.doubleRoom] at h hsmall ⊢
  by_cases hd : n < directPointers + blockPointers
  · rw [if_pos hd, if_pos hd, if_pos hd,
      if_pos (by simp only [directPointers, blockPointers] at *; omega)]
    exact Follows.runOn_pure _ _
  · rw [if_neg hd] at h hsmall
    rw [if_neg hd, if_neg hd, if_neg hd, if_neg (by omega), ← hl (by omega), ← getD_drop,
      ← hl (by omega)]
    have hchildren : Header.childCount (n - directPointers - blockPointers) ≤ blockPointers := by
      simp only [Header.childCount, maxFileSectors, directPointers, blockPointers] at *
      omega
    exact follows_fillDouble size hchildren h hsmall

/--
An allocation for which there is room draws and writes what is planned, if the sectors that it draws
have numbers that a pointer can hold.
-/
theorem follows_fill {size : Nat} (hfits : Header.Fits size
      (s.map.free.take (sectorsFor size + indexBlocksFor (sectorsFor size)))) :
    Follows m count (Disk.runOn s (fill size)) (Header.fillScript (sectorsFor size) s.map.free)
      (.ok (Header.planned size s.map.free,
        s.after (sectorsFor size + indexBlocksFor (sectorsFor size)))) := by
  have hn := hfits.sectors_le
  have h := hfits.room_of_take
  have hsmall := hfits.small
  rw [fill_eq]
  unfold Header.planned Header.fillScript
  generalize sectorsFor size = n at h hn hsmall ⊢
  rw [← Header.sum_rooms] at h hsmall ⊢
  have hdirect : Follows m count _ _ _ :=
    follows_drawMany (s := s) (min n directPointers) (by omega)
  have hsingle {m : Medium} : Follows m count _ _ _ := follows_singleTier (n := n)
    (l := s.map.free) (s := s.after (min n directPointers))
    (fun hs => by rw [free_after, Nat.min_eq_right (Nat.le_of_lt hs)])
    (by rw [free_after, List.length_drop]; omega) (lt_of_mem_free_after hsmall (by omega))
  have hdouble {m : Medium} : Follows m count _ _ _ := follows_doubleTier size hn
    (l := s.map.free) (s := s.after (min n directPointers + Header.singleRoom n))
    (fun hd => by rw [free_after, Header.singleRoom_of_full hd])
    (by rw [free_after, List.length_drop]; omega) (lt_of_mem_free_after hsmall (by omega))
  rw [after_after] at hsingle hdouble
  refine Follows.of_script (Follows.runOn_bind hdirect ?_) (List.nil_append _)
  refine Follows.runOn_bind hsingle ?_
  exact Follows.of_script (Follows.runOn_bind hdouble (Follows.runOn_pure _ _)) (List.append_nil _)

end Supply

/-! ## The header that is planned -/

namespace Header

open IndexBlock (stored named)

variable {m : Medium}

theorem stored_blockWrite {l : List Nat} {i n : Nat} (hm : Script.Held [blockWrite (i :: l) n] m)
    (hi : i < 0x80000000) :
    IndexBlock.stored m (Word.ofNat i) = IndexBlock.ofList ((l.take n).map Word.ofNat) := by
  have hget : m.get i = (IndexBlock.ofList ((l.take n).map Word.ofNat)).toSector :=
    hm _ _ (List.mem_singleton_self _)
  rw [IndexBlock.stored, Word.wide_ofNat hi, hget, IndexBlock.ofSector_toSector]

@[simp] theorem length_childBlocks (k : Nat) (l : List Nat) : (childBlocks k l).length = k := by
  induction k generalizing l with
  | zero => rfl
  | succ k ih => simp [childBlocks, ih]

theorem perm_children {k rest : Nat} (hk : k = childCount rest) {l : List Nat}
    (h : rest + k ≤ l.length) :
    (childBlocks k l ++ childData k rest l).Perm (l.take (rest + k)) := by
  simp only [childCount, blockPointers] at hk
  induction k generalizing rest l with
  | zero =>
    obtain rfl : rest = 0 := by omega
    exact List.Perm.refl _
  | succ k ih =>
    obtain ⟨i, l, rfl⟩ := List.exists_cons_of_length_pos (show 0 < l.length by omega)
    rw [List.length_cons] at h
    rw [← Nat.add_assoc, List.take_succ_cons, childBlocks, childData]
    simp only [List.headD_cons, List.drop_succ_cons, List.drop_zero, List.cons_append,
      blockPointers]
    refine List.Perm.cons i ?_
    have hsplit : rest + k = min rest 31 + (rest - min rest 31 + k) := by omega
    rw [hsplit, List.take_add]
    refine (List.perm_append_comm_assoc ..).trans (List.Perm.append_left _ ?_)
    -- the last child may name fewer sectors, but then no child comes after it
    have hlist : k = 0 ∧ rest - min rest 31 = 0 ∨ min rest 31 = 31 := by omega
    rcases hlist with ⟨rfl, hrest⟩ | heq
    · rw [hrest]
      exact List.Perm.refl _
    · rw [heq]
      exact ih (by omega) (by rw [List.length_drop]; omega)

theorem held_childScript_succ {k rest i : Nat} {l : List Nat} (hi : i < 0x80000000)
    (hm : (childScript (k + 1) rest (i :: l)).Held m) :
    IndexBlock.stored m (Word.ofNat i)
        = IndexBlock.ofList ((l.take (min rest blockPointers)).map Word.ofNat) ∧
      (childScript k (rest - blockPointers) (l.drop blockPointers)).Held m := by
  rw [childScript, List.drop_succ_cons] at hm
  obtain ⟨hblock, hrest⟩ := Script.held_append (a := [_]).mp hm
  exact ⟨stored_blockWrite hblock hi, hrest⟩

theorem length_childPointers (l : List Nat) (n : Nat) :
    ((l.take (min n blockPointers)).map Word.ofNat).length ≤ blockPointers := by
  rw [List.length_map, List.length_take]
  omega

theorem stored_child {k rest : Nat} (hk : k = childCount rest) {l : List Nat}
    (h : rest + k ≤ l.length) (hsmall : ∀ i ∈ l, i < 0x80000000)
    (hm : (childScript k rest l).Held m)
    {q c : Nat} (hc : (childBlocks k l)[q]? = some c) :
    Word.wide (IndexBlock.stored m (Word.ofNat c)).count
      = min (rest - blockPointers * q) blockPointers := by
  simp only [childCount, blockPointers] at hk
  induction k generalizing rest l q with
  | zero => cases hc
  | succ k ih =>
    obtain ⟨i, l, rfl⟩ := List.exists_cons_of_length_pos (show 0 < l.length by omega)
    rw [List.length_cons] at h
    obtain ⟨hstored, hrest⟩ := held_childScript_succ (hsmall i (List.mem_cons_self ..)) hm
    cases q with
    | zero =>
      obtain rfl : i = c := Option.some.inj hc
      rw [hstored, IndexBlock.wide_count_ofList (length_childPointers l rest)]
      simp only [List.length_map, List.length_take, blockPointers]
      omega
    | succ q =>
      have hlt : q < k := by
        have := (List.getElem?_eq_some_iff.mp hc).1
        rw [length_childBlocks] at this
        omega
      rw [ih (by simp only [blockPointers]; omega)
        (by simp only [List.length_drop, blockPointers]; omega)
        (fun i hi => hsmall i (List.mem_cons_of_mem _ (List.mem_of_mem_drop hi))) hrest hc]
      simp only [blockPointers]
      omega

theorem named_children {k rest : Nat} (hk : k = childCount rest) {l : List Nat}
    (h : rest + k ≤ l.length) (hsmall : ∀ i ∈ l, i < 0x80000000)
    (hm : (childScript k rest l).Held m) :
    ((childBlocks k l).map Word.ofNat).flatMap (fun c => (IndexBlock.stored m c).named)
      = (childData k rest l).map Word.ofNat := by
  simp only [childCount, blockPointers] at hk
  induction k generalizing rest l with
  | zero => rfl
  | succ k ih =>
    obtain ⟨i, l, rfl⟩ := List.exists_cons_of_length_pos (show 0 < l.length by omega)
    rw [List.length_cons] at h
    obtain ⟨hstored, hrest⟩ := held_childScript_succ (hsmall i (List.mem_cons_self ..)) hm
    have hnamed : (IndexBlock.stored m (Word.ofNat i)).named
        = (l.take (min rest blockPointers)).map Word.ofNat := by
      rw [hstored, IndexBlock.named_ofList (length_childPointers l rest)]
    have hlater := ih (by simp only [blockPointers]; omega)
      (by simp only [List.length_drop, blockPointers]; omega)
      (fun i hi => hsmall i (List.mem_cons_of_mem _ (List.mem_of_mem_drop hi))) hrest
    rw [childBlocks, childData]
    simp only [List.headD_cons, List.drop_succ_cons, List.drop_zero, List.map_cons,
      List.flatMap_cons, List.map_append, hnamed, hlater]

/-! ### Its tiers -/

theorem drop_eq_cons {l : List Nat} {k : Nat} (h : k < l.length) :
    l.drop k = l.getD k 0 :: l.drop (k + 1) := by
  rw [List.drop_eq_getElem_cons h, List.getD_eq_getElem?_getD, List.getElem?_eq_getElem h,
    Option.getD_some]

section

variable {size : Nat} {l : List Nat} (hsize : size ≤ maxFileSize)
include hsize

theorem length_planned : (planned size l).length = size := by
  refine Word.wide_ofNat ?_
  simp only [maxFileSize, maxFileSectors, sectorSize, directPointers, blockPointers] at *
  omega

theorem sectors_planned : (planned size l).sectors = sectorsFor size := by
  have := sectorsFor_le hsize
  refine Word.wide_ofNat ?_
  simp only [maxFileSectors, directPointers, blockPointers] at *
  omega

theorem directSectors_planned (hroom : min (sectorsFor size) directPointers ≤ l.length) :
    (planned size l).directSectors
      = (l.take (min (sectorsFor size) directPointers)).map Word.ofNat := by
  rw [directSectors, sectors_planned hsize]
  apply List.ext_getElem?
  intro i
  rw [List.getElem?_take, Vector.getElem?_toList, planned, Vector.getElem?_ofFn]
  simp only [directPointers] at *
  by_cases hi : i < min (sectorsFor size) 28
  · rw [if_pos (by omega), dif_pos (by omega), List.getD_eq_getElem?_getD]
    simp only [List.getElem?_map, List.getElem?_take_of_lt hi]
    rw [List.getElem?_eq_getElem (by omega)]
    rfl
  · rw [List.getElem?_eq_none (l := List.map _ _) (by
      simp only [List.length_map, List.length_take]
      omega)]
    split
    · exact dif_neg (by omega)
    · rfl

end

namespace Fits

variable {size : Nat} {l : List Nat} (hf : Fits size l)
include hf

theorem length_planned : (planned size l).length = size := Header.length_planned hf.size_le

theorem sectors_planned : (planned size l).sectors = sectorsFor size :=
  Header.sectors_planned hf.size_le

theorem room_direct : min (sectorsFor size) directPointers ≤ l.length := by
  have := hf.room
  omega

theorem room_single (hs : directPointers < sectorsFor size) :
    29 + min (sectorsFor size - directPointers) blockPointers ≤ l.length := by
  have h := hf.room
  rw [indexBlocksFor, if_neg (by omega)] at h
  simp only [directPointers, blockPointers] at *
  split at h <;> omega

theorem room_double (hd : directPointers + blockPointers ≤ sectorsFor size) :
    sectorsFor size - directPointers - blockPointers
      + childCount (sectorsFor size - directPointers - blockPointers) + 61 ≤ l.length := by
  have h := hf.room
  rw [indexBlocksFor, if_neg (by simp only [directPointers, blockPointers] at *; omega),
    if_neg (by omega)] at h
  simp only [childCount, directPointers, blockPointers] at *
  omega

theorem childCount_le :
    childCount (sectorsFor size - directPointers - blockPointers) ≤ blockPointers := by
  have := hf.sectors_le
  simp only [childCount, maxFileSectors, directPointers, blockPointers] at *
  omega

theorem getD_small (k : Nat) : l.getD k 0 < 0x80000000 := by
  rw [List.getD_eq_getElem?_getD]
  cases h : l[k]? with
  | none => decide
  | some i => exact hf.small i (List.mem_of_getElem? h)

theorem drop_small (k : Nat) : ∀ i ∈ l.drop k, i < 0x80000000 :=
  fun i hi => hf.small i (List.mem_of_mem_drop hi)

theorem directSectors_planned : (planned size l).directSectors
    = (l.take (min (sectorsFor size) directPointers)).map Word.ofNat :=
  Header.directSectors_planned hf.size_le hf.room_direct

theorem single?_planned : (planned size l).single?
    = if sectorsFor size ≤ directPointers then none else some (Word.ofNat (l.getD 28 0)) := by
  by_cases hs : sectorsFor size ≤ directPointers
  · rw [if_pos hs]
    exact single?_eq_none (if_pos hs)
  · have hsingle : (planned size l).single = Word.ofNat (l.getD 28 0) := if_neg hs
    rw [if_neg hs, ← hsingle]
    exact single?_eq_some (hsingle ▸ Word.ofNat_ne_noSector (hf.getD_small 28))

theorem double?_planned : (planned size l).double?
    = if sectorsFor size < directPointers + blockPointers then none
      else some (Word.ofNat (l.getD 60 0)) := by
  by_cases hd : sectorsFor size < directPointers + blockPointers
  · rw [if_pos hd]
    exact double?_eq_none (if_pos hd)
  · have hdouble : (planned size l).double = Word.ofNat (l.getD 60 0) := if_neg hd
    rw [if_neg hd, ← hdouble]
    exact double?_eq_some (hdouble ▸ Word.ofNat_ne_noSector (hf.getD_small 60))

/-! ### Its sectors -/

theorem take_singleRoom : (l.drop (min (sectorsFor size) directPointers)).take
      (singleRoom (sectorsFor size))
    = (if sectorsFor size ≤ directPointers then [] else [l.getD 28 0])
      ++ (l.drop 29).take (min (sectorsFor size - directPointers) blockPointers) := by
  unfold singleRoom
  by_cases hs : sectorsFor size ≤ directPointers
  · rw [if_pos hs, if_pos hs, Nat.sub_eq_zero_of_le hs]
    rfl
  · have hroom := hf.room_single (by omega)
    have hfull : min (sectorsFor size) directPointers = 28 := Nat.min_eq_right (by omega)
    rw [if_neg hs, if_neg hs, hfull, drop_eq_cons (by omega), List.take_succ_cons]
    rfl

theorem perm_doubleRoom : ((if sectorsFor size < directPointers + blockPointers then []
        else [l.getD 60 0])
      ++ (childBlocks (childCount (sectorsFor size - directPointers - blockPointers)) (l.drop 61)
      ++ childData (childCount (sectorsFor size - directPointers - blockPointers))
        (sectorsFor size - directPointers - blockPointers) (l.drop 61))).Perm
    ((l.drop (min (sectorsFor size) directPointers + singleRoom (sectorsFor size))).take
      (doubleRoom (sectorsFor size))) := by
  unfold doubleRoom
  by_cases hd : sectorsFor size < directPointers + blockPointers
  · have hrest : sectorsFor size - directPointers - blockPointers = 0 := by omega
    rw [if_pos hd, if_pos hd, hrest]
    exact List.Perm.refl _
  · have hroom := hf.room_double (by omega)
    have hdrop : l.drop 60 = l.getD 60 0 :: l.drop 61 := drop_eq_cons (by omega)
    rw [if_neg hd, if_neg hd, singleRoom_of_full (by omega), hdrop, Nat.add_right_comm,
      List.take_succ_cons]
    exact List.Perm.cons _ (perm_children rfl (by rw [List.length_drop]; omega))

/-- The sectors of a file that is planned are the lowest ones, each of them once. -/
theorem perm_planned : (plannedData (sectorsFor size) l ++ plannedIndex (sectorsFor size) l).Perm
    (l.take (sectorsFor size + indexBlocksFor (sectorsFor size))) := by
  have hdouble := hf.perm_doubleRoom
  rw [plannedData, plannedIndex, ← sum_rooms, List.take_add, List.take_add, hf.take_singleRoom]
  -- what is left is to bring the tiers together
  refine List.perm_iff_count.mpr fun i => ?_
  have hcount := hdouble.count_eq i
  simp only [List.count_append] at hcount ⊢
  omega

theorem targets_fillScript :
    (fillScript (sectorsFor size) l).targets.Perm (plannedIndex (sectorsFor size) l) := by
  rw [fillScript, plannedIndex, Script.targets_append, List.append_assoc]
  refine List.Perm.append ?_ ?_
  · by_cases hs : sectorsFor size ≤ directPointers
    · rw [if_pos hs, if_pos hs]
      exact List.Perm.refl _
    · have hroom := hf.room_single (by omega)
      rw [if_neg hs, if_neg hs, drop_eq_cons (by omega)]
      exact List.Perm.refl _
  · by_cases hd : sectorsFor size < directPointers + blockPointers
    · have hrest : sectorsFor size - directPointers - blockPointers = 0 := by omega
      rw [if_pos hd, if_pos hd, hrest]
      exact List.Perm.refl _
    · have hroom := hf.room_double (by omega)
      rw [if_neg hd, if_neg hd, drop_eq_cons (by omega), doubleScript, Script.targets_append,
        targets_childScript]
      exact List.perm_append_comm

omit hf in
theorem mem_childScript {k rest : Nat} {l : List Nat} {t : Transfer}
    (ht : t ∈ childScript k rest l) : ∃ s bytes, t = .write s bytes := by
  induction k generalizing rest l with
  | zero => cases ht
  | succ k ih =>
    rcases List.mem_cons.mp ht with rfl | ht
    · exact ⟨_, _, rfl⟩
    · exact ih ht

omit hf in
theorem mem_fillScript {n : Nat} {t : Transfer} (ht : t ∈ fillScript n l) :
    ∃ s bytes, t = .write s bytes := by
  rcases List.mem_append.mp ht with ht | ht
  · split at ht
    · cases ht
    · rw [List.mem_singleton.mp ht]
      exact ⟨_, _, rfl⟩
  · split at ht
    · cases ht
    · rcases List.mem_append.mp ht with ht | ht
      · exact mem_childScript ht
      · rw [List.mem_singleton.mp ht]
        exact ⟨_, _, rfl⟩

theorem targets_subset : (fillScript (sectorsFor size) l).targets
    ⊆ l.take (sectorsFor size + indexBlocksFor (sectorsFor size)) := fun _ hs =>
  hf.perm_planned.mem_iff.mp (List.mem_append_right _ (hf.targets_fillScript.mem_iff.mp hs))

theorem planned_small : ∀ i ∈ plannedData (sectorsFor size) l ++ plannedIndex (sectorsFor size) l,
    i < 0x80000000 := fun i hi =>
  hf.small i (List.mem_of_mem_take (hf.perm_planned.mem_iff.mp hi))

theorem nodup_planned :
    (plannedData (sectorsFor size) l ++ plannedIndex (sectorsFor size) l).Nodup :=
  hf.perm_planned.nodup_iff.mpr (hf.nodup.sublist (List.take_sublist ..))

theorem within_fillScript {count : Nat} (h : ∀ i ∈ l, i < count) :
    (fillScript (sectorsFor size) l).Within count := by
  intro t ht
  obtain ⟨s, bytes, rfl⟩ := mem_fillScript ht
  exact h s (List.mem_of_mem_take (hf.targets_subset (Script.mem_targets ht)))

theorem nodup_targets : (fillScript (sectorsFor size) l).targets.Nodup :=
  hf.targets_fillScript.nodup_iff.mpr (List.nodup_append.mp hf.nodup_planned).2.1

/-! ### Its blocks -/

variable (hm : (fillScript (sectorsFor size) l).Held m)
include hm

theorem stored_single (hs : directPointers < sectorsFor size) :
    IndexBlock.stored m (Word.ofNat (l.getD 28 0)) = IndexBlock.ofList
      (((l.drop 29).take
        (min (sectorsFor size - directPointers) blockPointers)).map Word.ofNat) := by
  have hroom := hf.room_single hs
  have hblock := (Script.held_append.mp hm).1
  rw [if_neg (by omega), drop_eq_cons (by omega)] at hblock
  exact stored_blockWrite hblock (hf.getD_small 28)

theorem stored_double (hd : directPointers + blockPointers ≤ sectorsFor size) :
    IndexBlock.stored m (Word.ofNat (l.getD 60 0)) = IndexBlock.ofList ((childBlocks
      (childCount (sectorsFor size - directPointers - blockPointers)) (l.drop 61)).map
        Word.ofNat) := by
  have hroom := hf.room_double hd
  have hblock := (Script.held_append.mp hm).2
  rw [if_neg (by omega), drop_eq_cons (by omega)] at hblock
  have hget := (Script.held_append.mp hblock).2 _ _ (List.mem_singleton_self _)
  rw [List.headD_cons] at hget
  rw [IndexBlock.stored, Word.wide_ofNat (hf.getD_small 60), hget, IndexBlock.ofSector_toSector]
  rfl

omit hf in
theorem held_children (hd : directPointers + blockPointers ≤ sectorsFor size) :
    (childScript (childCount (sectorsFor size - directPointers - blockPointers))
      (sectorsFor size - directPointers - blockPointers) (l.drop 61)).Held m := by
  have hblock := (Script.held_append.mp hm).2
  rw [if_neg (by omega)] at hblock
  have hchildren := (Script.held_append.mp hblock).1
  rwa [List.drop_drop] at hchildren

theorem singlePointers_planned : (planned size l).singlePointers m
    = ((l.drop 29).take (min (sectorsFor size - directPointers) blockPointers)).map Word.ofNat := by
  rw [singlePointers, hf.single?_planned]
  by_cases hs : sectorsFor size ≤ directPointers
  · rw [if_pos hs, Nat.sub_eq_zero_of_le hs]
    rfl
  · have hs : directPointers < sectorsFor size := by omega
    rw [if_neg (by omega)]
    dsimp only
    rw [hf.stored_single hm hs, IndexBlock.named_ofList]
    simp only [List.length_map, List.length_take, blockPointers]
    omega

theorem children_planned : (planned size l).children m
    = (childBlocks (childCount (sectorsFor size - directPointers - blockPointers))
        (l.drop 61)).map Word.ofNat := by
  have hle := hf.childCount_le
  rw [children, hf.double?_planned]
  by_cases hd : sectorsFor size < directPointers + blockPointers
  · have hrest : sectorsFor size - directPointers - blockPointers = 0 := by omega
    rw [if_pos hd, hrest]
    rfl
  · rw [if_neg hd]
    dsimp only
    rw [hf.stored_double hm (by omega), IndexBlock.named_ofList]
    rw [List.length_map, length_childBlocks]
    exact hle

theorem doublePointers_planned : (planned size l).doublePointers m
    = (childData (childCount (sectorsFor size - directPointers - blockPointers))
        (sectorsFor size - directPointers - blockPointers) (l.drop 61)).map Word.ofNat := by
  rw [doublePointers, hf.children_planned hm]
  by_cases hd : sectorsFor size < directPointers + blockPointers
  · have hrest : sectorsFor size - directPointers - blockPointers = 0 := by omega
    rw [hrest]
    rfl
  · have hd : directPointers + blockPointers ≤ sectorsFor size := by omega
    have hroom := hf.room_double hd
    exact named_children rfl (by rw [List.length_drop]; omega) (hf.drop_small 61)
      (held_children hm hd)

theorem intact_planned : (planned size l).Intact m where
  length_le := by
    rw [hf.length_planned]
    exact hf.size_le
  sectors_eq := by rw [hf.sectors_planned, hf.length_planned]
  single_none hs := by
    rw [hf.sectors_planned] at hs
    exact if_pos hs
  single_some hs := by
    rw [hf.sectors_planned] at hs
    have hsingle : (planned size l).single = Word.ofNat (l.getD 28 0) := if_neg (by omega)
    rw [hsingle]
    exact Word.ofNat_ne_noSector (hf.getD_small 28)
  single_count hs := by
    rw [hf.sectors_planned] at hs ⊢
    have hroom := hf.room_single hs
    have hsingle : (planned size l).single = Word.ofNat (l.getD 28 0) := if_neg (by omega)
    have hlen : (((l.drop 29).take (min (sectorsFor size - directPointers)
        blockPointers)).map Word.ofNat).length
        = min (sectorsFor size - directPointers) blockPointers := by
      rw [List.length_map, List.length_take, List.length_drop]
      omega
    rw [hsingle, hf.stored_single hm hs, IndexBlock.wide_count_ofList (by
      rw [hlen]
      exact Nat.min_le_right ..), hlen]
  double_none hd := by
    rw [hf.sectors_planned] at hd
    exact if_pos hd
  double_some hd := by
    rw [hf.sectors_planned] at hd
    have hdouble : (planned size l).double = Word.ofNat (l.getD 60 0) := if_neg (by omega)
    rw [hdouble]
    exact Word.ofNat_ne_noSector (hf.getD_small 60)
  double_count hd := by
    rw [hf.sectors_planned] at hd ⊢
    have hle := hf.childCount_le
    have hdouble : (planned size l).double = Word.ofNat (l.getD 60 0) := if_neg (by omega)
    rw [hdouble, hf.stored_double hm hd, IndexBlock.wide_count_ofList]
    · rw [List.length_map, length_childBlocks]
      rfl
    · rw [List.length_map, length_childBlocks]
      exact hle
  child_count q c hc := by
    rw [hf.children_planned hm, List.getElem?_map, Option.map_eq_some_iff] at hc
    obtain ⟨i, hi, rfl⟩ := hc
    rw [hf.sectors_planned]
    by_cases hd : sectorsFor size < directPointers + blockPointers
    · have hrest : sectorsFor size - directPointers - blockPointers = 0 := by omega
      rw [hrest] at hi
      cases hi
    · have hd : directPointers + blockPointers ≤ sectorsFor size := by omega
      have hroom := hf.room_double hd
      exact stored_child rfl (by rw [List.length_drop]; omega) (hf.drop_small 61)
        (held_children hm hd) hi

theorem data_planned : (planned size l).data m = plannedData (sectorsFor size) l := by
  rw [plannedData, data, dataPointers, hf.directSectors_planned, hf.singlePointers_planned hm,
    hf.doublePointers_planned hm, ← List.map_append, ← List.map_append, Word.map_wide_ofNat]
  exact fun i hi => hf.planned_small i (List.mem_append_left _ hi)

theorem index_planned : (planned size l).index m = plannedIndex (sectorsFor size) l := by
  have hchildren : ((childBlocks (childCount (sectorsFor size - directPointers - blockPointers))
      (l.drop 61)).map Word.ofNat).map Word.wide
      = childBlocks (childCount (sectorsFor size - directPointers - blockPointers))
        (l.drop 61) :=
    Word.map_wide_ofNat fun i hi =>
      hf.planned_small i (List.mem_append_right _ (List.mem_append_right _ hi))
  rw [plannedIndex, index, indexPointers, hf.children_planned hm, List.map_append, List.map_append,
    hchildren,
    hf.single?_planned, hf.double?_planned]
  congr 2
  · split
    · rfl
    · exact congrArg (fun i => [i]) (Word.wide_ofNat (hf.getD_small 28))
  · split
    · rfl
    · exact congrArg (fun i => [i]) (Word.wide_ofNat (hf.getD_small 60))

theorem separate_planned : (planned size l).Separate m := by
  rw [Separate, hf.data_planned hm, hf.index_planned hm]
  exact hf.nodup_planned

end Fits

end Header

/-! ## Allocation -/

namespace Supply

/-- Whatever becomes of the request, the supply has only lost some of its lowest sectors. -/
def Draws {α : Type} (act : SupplyM α) : Prop :=
  ∀ disk s, ∃ n, match act ⟨disk, s⟩ with
    | .ok _ held => held.value = s.after n
    | .error _ held => held.value = s.after n

namespace Draws

variable {α β : Type} {act : SupplyM α}

theorem pure (a : α) : Draws (pure a) := fun _ _ => ⟨0, rfl⟩

theorem refuse (cause : Refusal) : Draws (refuse cause : SupplyM α) := fun _ _ => ⟨0, rfl⟩

theorem bind {f : α → SupplyM β} (h : Draws act) (hf : ∀ a, Draws (f a)) : Draws (act >>= f) := by
  intro disk s
  obtain ⟨n, hn⟩ := h disk s
  rw [bind_apply]
  cases hact : act ⟨disk, s⟩ with
  | error e held =>
    rw [hact] at hn
    exact ⟨n, hn⟩
  | ok a held =>
    rw [hact] at hn
    obtain ⟨disk', s'⟩ := held
    obtain rfl : s' = s.after n := hn
    obtain ⟨n', hn'⟩ := hf a disk' (s.after n)
    refine ⟨n + n', ?_⟩
    rw [← after_after]
    exact hn'

theorem lift (act : DiskM α) : Draws (liftM act) := by
  intro disk s
  refine ⟨0, ?_⟩
  simp only [liftM, monadLift, MonadLift.monadLift]
  cases act disk <;> rfl

theorem draw : Draws Supply.draw := by
  rintro disk ⟨map, drawn⟩
  cases hfree : map.free with
  | nil =>
    refine ⟨0, ?_⟩
    simp only [Supply.draw, SectorMap.take_eq_none_of_free hfree]
    rfl
  | cons i rest =>
    refine ⟨1, ?_⟩
    simp only [Supply.draw, SectorMap.take_eq hfree, after, hfree]
    rfl

theorem drawMany (n : Nat) : Draws (Supply.drawMany n) := by
  induction n with
  | zero => exact pure _
  | succ n ih => exact draw.bind fun _ => ih.bind fun _ => pure _

theorem fillBlock (p : Int32) (n : Nat) : Draws (Supply.fillBlock p n) :=
  (drawMany n).bind fun _ => lift _

theorem fillChildren (size rest named : Nat) : Draws (Supply.fillChildren size rest named) := by
  fun_induction Supply.fillChildren size rest named with
  | case1 => exact pure _
  | case2 => exact refuse _
  | case3 rest named _ _ ih =>
    exact draw.bind fun _ => (fillBlock _ _).bind fun _ => ih.bind fun _ => pure _

theorem fillSingle (n : Nat) : Draws (Supply.fillSingle n) :=
  draw.bind fun _ => (fillBlock _ _).bind fun _ => pure _

theorem fillDouble (size n : Nat) : Draws (Supply.fillDouble size n) :=
  draw.bind fun _ => (fillChildren _ _ _).bind fun _ => (lift _).bind fun _ => pure _

theorem fill (size : Nat) : Draws (Supply.fill size) := by
  rw [fill_eq]
  refine (drawMany _).bind fun _ => bind ?_ fun _ => bind ?_ fun _ => pure _
  · split
    · exact pure _
    · exact fillSingle _
  · split
    · exact pure _
    · exact fillDouble _ _

end Draws

theorem releaseAll_after (map : SectorMap) (n : Nat) :
    ((⟨map, []⟩ : Supply).after n).map.releaseAll ((⟨map, []⟩ : Supply).after n).drawn
      = .ok map := by
  have hfree : ∀ i ∈ map.free.take n, i ∈ map.free := fun i hi => List.mem_of_mem_take hi
  have hlt : ∀ i ∈ map.free.take n, i < map.size := fun i hi =>
    SectorMap.lt_of_mem_free (hfree i hi)
  simp only [after, List.append_nil]
  rw [SectorMap.releaseAll_eq, SectorMap.setAll_setAll hfree fun i => List.mem_reverse]
  · exact (List.reverse_perm _).nodup_iff.mpr
      ((SectorMap.nodup_free map).sublist (List.take_sublist ..))
  · intro i hi
    rw [List.mem_reverse] at hi
    rw [SectorMap.size_setAll, SectorMap.bit_setAll hlt, if_pos hi]
    exact ⟨hlt i hi, rfl⟩

end Supply

namespace Header

variable {m : Medium} {count : Nat} {map : SectorMap} {h : Header} {size : Nat}

theorem allocate_tooLarge (hsize : maxFileSize < size) (held : Disk.With Holding) :
    allocate size held = .error (.refused (.fileTooLarge size)) held := by
  obtain ⟨disk, map, h⟩ := held
  exact if_pos hsize

theorem follows_allocate_tooLarge (hsize : maxFileSize < size) :
    Follows m count (Disk.runOn ⟨map, h⟩ (allocate size)) []
      (.error (.refused (.fileTooLarge size))) := by
  intro p
  rw [Disk.runOn, allocate_tooLarge hsize]
  rfl

theorem follows_allocate_noSpace (hsize : size ≤ maxFileSize) (hmap : map.Tidy)
    (hroom : map.free.length < sectorsFor size + indexBlocksFor (sectorsFor size)) :
    Follows m count (Disk.runOn ⟨map, h⟩ (allocate size)) [] (.error (.refused .noSpace)) := by
  intro p
  simp only [Disk.runOn, allocate, if_neg (Nat.not_lt.mpr hsize), SectorMap.freeCount_eq hmap,
    if_pos hroom]
  rfl

/-- An allocation for which there is room draws its sectors. If a block cannot be written it leaves no
trace. -/
theorem follows_allocate_of_fill {free n : Nat} {script : Script} {header : Header}
    (hsize : size ≤ maxFileSize) (hfree : map.freeCount = .ok free)
    (hroom : sectorsFor size + indexBlocksFor (sectorsFor size) ≤ free)
    (hfill : Follows m count (Disk.runOn ⟨map, []⟩ (Supply.fill size)) script
      (.ok (header, (⟨map, []⟩ : Supply).after n))) :
    Follows m count (Disk.runOn ⟨map, h⟩ (allocate size)) script
      (.ok ((), ⟨map.setAll (map.free.take n) true, header⟩)) := by
  intro p
  have hfill : Disk.runOn ⟨map, []⟩ (Supply.fill size) ⟨m, count, p⟩ = _ := hfill p
  obtain ⟨k, hk⟩ := Supply.Draws.fill size ⟨m, count, p⟩ ⟨map, []⟩
  simp only [Disk.runOn, bind_apply] at hfill
  simp only [Disk.runOn, allocate, if_neg (Nat.not_lt.mpr hsize), hfree,
    if_neg (Nat.not_lt.mpr hroom), bind_apply]
  cases hact : Supply.fill size ⟨⟨m, count, p⟩, ⟨map, []⟩⟩ with
  | ok a held =>
    rw [hact] at hfill
    obtain ⟨disk', s'⟩ := held
    cases hplay : script.play ⟨m, count, p⟩ with
    | ok u disk =>
      simp only [hplay] at hfill
      injection hfill with hvalue hdisk
      obtain ⟨rfl, rfl⟩ := Prod.mk.inj hvalue
      rw [hdisk]
      rfl
    | error e disk =>
      simp only [hplay] at hfill
      cases hfill
  | error e held =>
    rw [hact] at hfill hk
    obtain ⟨disk', s'⟩ := held
    obtain rfl : s' = (⟨map, []⟩ : Supply).after k := hk
    cases hplay : script.play ⟨m, count, p⟩ with
    | ok u disk =>
      simp only [hplay] at hfill
      cases hfill
    | error e' disk =>
      simp only [hplay] at hfill
      cases hfill
      simp only [Supply.releaseAll_after]

theorem follows_allocate_of_freeCount {free : Nat} (hfree : map.freeCount = .ok free)
    (hroom : sectorsFor size + indexBlocksFor (sectorsFor size) ≤ free)
    (hf : Fits size (map.free.take (sectorsFor size + indexBlocksFor (sectorsFor size)))) :
    Follows m count (Disk.runOn ⟨map, h⟩ (allocate size)) (fillScript (sectorsFor size) map.free)
      (.ok ((), ⟨map.setAll
        (map.free.take (sectorsFor size + indexBlocksFor (sectorsFor size))) true,
        planned size map.free⟩)) :=
  follows_allocate_of_fill hf.size_le hfree hroom (Supply.follows_fill (s := ⟨map, []⟩) hf)

theorem follows_allocate (hmap : map.Tidy) (hf : Fits size map.free) :
    Follows m count (Disk.runOn ⟨map, h⟩ (allocate size)) (fillScript (sectorsFor size) map.free)
      (.ok ((), ⟨map.setAll
        (map.free.take (sectorsFor size + indexBlocksFor (sectorsFor size))) true,
        planned size map.free⟩)) :=
  follows_allocate_of_freeCount (SectorMap.freeCount_eq hmap) hf.room hf.take

end Header

end IndexedDisk
