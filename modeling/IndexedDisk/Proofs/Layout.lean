import IndexedDisk.Header.Basic
import IndexedDisk.Proofs.Script

/-!
# Where a file lies

The sectors that a header reaches on a given medium, read off without running a request: `data`
lists the data sectors and `index` the index blocks. `Legible` says that the counts of its blocks are
in bounds, and `Intact` that these and its tiers are the ones that the length of the file asks for.

* `Legible.follows_dataSectors`, `follows_indexSectors`: the enumerations list `data` and `index`.
* `Intact.follows_sectorOf`: the byte at an offset lies in the data sector of that number.
* `length_data`, `length_index`: how many sectors there are of each.
* `Intact.congr`: all of this depends on the index blocks alone.
-/

namespace IndexedDisk

namespace IndexBlock

/-- The block stored at `p`. -/
def stored (m : Medium) (p : Int32) : IndexBlock := ofSector (m.get (Word.wide p))

/-- The sectors that a block names, if its count is in bounds. -/
def named (b : IndexBlock) : List Int32 := b.pointers.toList.take (Word.wide b.count)

theorem entries_eq {b : IndexBlock} (h : Word.wide b.count ≤ blockPointers) :
    b.entries = .ok b.named :=
  if_pos h

theorem length_named (b : IndexBlock) : b.named.length = min (Word.wide b.count) 31 := by
  simp [named]

theorem pointer_eq {b : IndexBlock} {i : Nat} {p : Int32} (h : b.named[i]? = some p) :
    b.pointer i = .ok p := by
  have hi : i < 31 := by
    obtain ⟨hi, _⟩ := List.getElem?_eq_some_iff.mp h
    rw [length_named] at hi
    omega
  have hp : b.pointers[i]? = some p := by
    rw [named, List.getElem?_take] at h
    split at h
    · rwa [Vector.getElem?_toList] at h
    · cases h
  rw [pointer, hp]

variable {m : Medium} {count : Nat}

theorem follows_fetch (p : Int32) :
    Follows m count (fetch p) (Script.reads [Word.wide p]) (.ok (stored m p)) :=
  (Follows.readSector _).map

theorem follows_entriesAt {p : Int32} (h : Word.wide (stored m p).count ≤ blockPointers) :
    Follows m count (entriesAt p) (Script.reads [Word.wide p]) (.ok (stored m p).named) :=
  Follows.bind_nil (follows_fetch p) (Follows.of_ok (entries_eq h))

end IndexBlock

namespace Header

open IndexBlock (stored named)

/-- The header stored in sector `s`. -/
def stored (m : Medium) (s : Nat) : Header := ofSector (m.get s)

variable (m : Medium) (h : Header)

/-- The data sectors of the single tier. -/
def singlePointers : List Int32 :=
  match h.single? with
  | none => []
  | some p => (IndexBlock.stored m p).named

/-- The child blocks of the double tier. -/
def children : List Int32 :=
  match h.double? with
  | none => []
  | some p => (IndexBlock.stored m p).named

/-- The data sectors of the double tier. -/
def doublePointers : List Int32 :=
  (h.children m).flatMap fun c => (IndexBlock.stored m c).named

/-- The data sectors of the file, as the header and its blocks name them. -/
def dataPointers : List Int32 := h.directSectors ++ h.singlePointers m ++ h.doublePointers m

/-- The index blocks of the file, as the header and its blocks name them. -/
def indexPointers : List Int32 := h.single?.toList ++ h.double?.toList ++ h.children m

/-- The data sectors of the file. -/
def data : List Nat := (h.dataPointers m).map Word.wide

/-- The index blocks of the file. -/
def index : List Nat := (h.indexPointers m).map Word.wide

/-- The pointer to data sector `k` of the file. -/
def pointerAt (k : Nat) : Int32 := (h.dataPointers m).getD k 0

/-- Data sector `k` of the file. -/
def sectorAt (k : Nat) : Nat := Word.wide (h.pointerAt m k)

/-- No block that the header leads to names more sectors than a block can hold. -/
structure Legible : Prop where
  single_le : ∀ p, h.single? = some p →
    Word.wide (IndexBlock.stored m p).count ≤ blockPointers
  double_le : ∀ p, h.double? = some p →
    Word.wide (IndexBlock.stored m p).count ≤ blockPointers
  child_le : ∀ c ∈ h.children m, Word.wide (IndexBlock.stored m c).count ≤ blockPointers

/-- The tiers and the counts of a header are those that the length of its file asks for. -/
structure Intact : Prop where
  length_le : h.length ≤ maxFileSize
  sectors_eq : h.sectors = sectorsFor h.length
  single_none : h.sectors ≤ directPointers → h.single = noSector
  single_some : directPointers < h.sectors → h.single ≠ noSector
  single_count : directPointers < h.sectors →
    Word.wide (IndexBlock.stored m h.single).count = min (h.sectors - directPointers) blockPointers
  double_none : h.sectors < directPointers + blockPointers → h.double = noSector
  double_some : directPointers + blockPointers ≤ h.sectors → h.double ≠ noSector
  double_count : directPointers + blockPointers ≤ h.sectors →
    Word.wide (IndexBlock.stored m h.double).count
      = (h.sectors - directPointers - blockPointers + (blockPointers - 1)) / blockPointers
  child_count : ∀ q c, (h.children m)[q]? = some c → Word.wide (IndexBlock.stored m c).count
    = min (h.sectors - directPointers - blockPointers - blockPointers * q) blockPointers

/-- The index blocks on the way to data sector `k`. -/
def route (k : Nat) : List Nat :=
  if k < directPointers then []
  else if k < directPointers + blockPointers then [Word.wide h.single]
  else [Word.wide h.double,
    Word.wide ((h.children m).getD ((k - directPointers - blockPointers) / blockPointers) 0)]

variable {m h}

theorem single?_eq_none (hs : h.single = noSector) : h.single? = none := if_pos hs

theorem single?_eq_some (hs : h.single ≠ noSector) : h.single? = some h.single := if_neg hs

theorem double?_eq_none (hd : h.double = noSector) : h.double? = none := if_pos hd

theorem double?_eq_some (hd : h.double ≠ noSector) : h.double? = some h.double := if_neg hd

/-! ## Counting -/

/-- A position in a row of chunks of one length, of which the last may be shorter. -/
theorem getElem?_flatMap_chunks {α β : Type} (f : α → List β) {k : Nat} {l : List α}
    (hfull : ∀ q a, l[q]? = some a → q + 1 < l.length → (f a).length = k)
    {q r : Nat} {a : α} (hq : l[q]? = some a) (hr : r < (f a).length) :
    (l.flatMap f)[k * q + r]? = (f a)[r]? := by
  induction l generalizing q with
  | nil => simp at hq
  | cons b l ih =>
    rw [List.flatMap_cons]
    cases q with
    | zero =>
      obtain rfl : b = a := by simpa using hq
      rw [Nat.mul_zero, Nat.zero_add, List.getElem?_append_left hr]
    | succ q =>
      have hq : l[q]? = some a := by simpa using hq
      have hlen : q < l.length := (List.getElem?_eq_some_iff.mp hq).1
      have hb : (f b).length = k := hfull 0 b rfl (by simp; omega)
      rw [List.getElem?_append_right (by rw [hb, Nat.mul_succ]; omega), hb]
      have hpos : k * (q + 1) + r - k = k * q + r := by rw [Nat.mul_succ]; omega
      rw [hpos]
      exact ih (fun q a hq' hlt => hfull (q + 1) a (by simpa using hq') (by simp; omega)) hq

namespace Intact

variable (hh : h.Intact m)
include hh

theorem sectors_le : h.sectors ≤ maxFileSectors := by
  have := hh.length_le
  have := hh.sectors_eq
  simp only [sectorsFor, maxFileSize, maxFileSectors, sectorSize, directPointers,
    blockPointers] at *
  omega

theorem lt_sectors {offset : Nat} (ho : offset < h.length) : offset / sectorSize < h.sectors := by
  rw [hh.sectors_eq, sectorsFor]
  simp only [sectorSize]
  omega

omit hh in
theorem length_directSectors : h.directSectors.length = min h.sectors directPointers := by
  simp [directSectors]

theorem single_le (hs : directPointers < h.sectors) :
    Word.wide (IndexBlock.stored m h.single).count ≤ blockPointers := by
  rw [hh.single_count hs]
  omega

theorem length_singlePointers :
    (h.singlePointers m).length = min (h.sectors - directPointers) blockPointers := by
  unfold singlePointers
  by_cases hs : h.sectors ≤ directPointers
  · rw [single?_eq_none (hh.single_none hs)]
    simp only [List.length_nil, directPointers] at *
    omega
  · have hs : directPointers < h.sectors := by omega
    rw [single?_eq_some (hh.single_some hs)]
    simp only [IndexBlock.length_named, hh.single_count hs, directPointers, blockPointers]
    omega

theorem double_le (hd : directPointers + blockPointers ≤ h.sectors) :
    Word.wide (IndexBlock.stored m h.double).count ≤ blockPointers := by
  have := hh.sectors_le
  rw [hh.double_count hd]
  simp only [maxFileSectors, directPointers, blockPointers] at *
  omega

theorem length_children : (h.children m).length
    = (h.sectors - directPointers - blockPointers + (blockPointers - 1)) / blockPointers := by
  unfold children
  by_cases hd : h.sectors < directPointers + blockPointers
  · rw [double?_eq_none (hh.double_none hd)]
    simp only [List.length_nil, directPointers, blockPointers] at *
    omega
  · have hd : directPointers + blockPointers ≤ h.sectors := by omega
    have hle := hh.double_le hd
    rw [hh.double_count hd] at hle
    rw [double?_eq_some (hh.double_some hd)]
    simp only [IndexBlock.length_named, hh.double_count hd, blockPointers, directPointers] at *
    omega

theorem child_le {c : Int32} (hc : c ∈ h.children m) :
    Word.wide (IndexBlock.stored m c).count ≤ blockPointers := by
  obtain ⟨q, hq⟩ := List.getElem?_of_mem hc
  rw [hh.child_count q c hq]
  omega

theorem length_child {q : Nat} {c : Int32} (hc : (h.children m)[q]? = some c) :
    (IndexBlock.stored m c).named.length
      = min (h.sectors - directPointers - blockPointers - blockPointers * q) blockPointers := by
  rw [IndexBlock.length_named, hh.child_count q c hc]
  simp only [blockPointers]
  omega

theorem child_full {q : Nat} {c : Int32} (hc : (h.children m)[q]? = some c)
    (hq : q + 1 < (h.children m).length) :
    (IndexBlock.stored m c).named.length = blockPointers := by
  rw [hh.length_child hc]
  rw [hh.length_children] at hq
  simp only [directPointers, blockPointers] at *
  omega

theorem length_doublePointers : (h.doublePointers m).length
    = h.sectors - directPointers - blockPointers := by
  -- the lengths of the children add up, because all but the last are full
  have key : ∀ (l : List Int32) (n : Nat),
      (∀ q c, l[q]? = some c → (IndexBlock.stored m c).named.length
        = min (n - blockPointers * q) blockPointers) →
      l.length = (n + (blockPointers - 1)) / blockPointers →
      (l.flatMap fun c => (IndexBlock.stored m c).named).length = n := by
    intro l
    induction l with
    | nil =>
      intro n _ hlen
      simp only [List.length_nil, blockPointers] at hlen
      simp
      omega
    | cons c l ih =>
      intro n hcount hlen
      have hc := hcount 0 c rfl
      rw [List.flatMap_cons, List.length_append, ih (n - blockPointers) ?_ ?_, hc]
      · simp only [blockPointers]
        omega
      · intro q c hq
        rw [hcount (q + 1) c (by simpa using hq), Nat.sub_sub, Nat.mul_succ, Nat.add_comm]
      · simp only [List.length_cons, blockPointers] at hlen ⊢
        omega
  exact key _ _ (fun q c hc => hh.length_child hc) hh.length_children

theorem length_dataPointers : (h.dataPointers m).length = h.sectors := by
  rw [dataPointers, List.length_append, List.length_append, length_directSectors,
    hh.length_singlePointers, hh.length_doublePointers]
  simp only [directPointers, blockPointers]
  omega

theorem length_data : (h.data m).length = h.sectors := by
  rw [data, List.length_map, hh.length_dataPointers]

theorem length_index : (h.index m).length = indexBlocksFor h.sectors := by
  rw [index, List.length_map, indexPointers, List.length_append, List.length_append,
    hh.length_children, indexBlocksFor]
  by_cases hs : h.sectors ≤ directPointers
  · rw [single?_eq_none (hh.single_none hs), double?_eq_none (hh.double_none (by
      simp only [directPointers, blockPointers] at *
      omega)), if_pos hs]
    simp only [Option.toList_none, List.length_nil, directPointers, blockPointers] at *
    omega
  · have hs : directPointers < h.sectors := by omega
    rw [single?_eq_some (hh.single_some hs), if_neg (by omega)]
    by_cases hd : h.sectors < directPointers + blockPointers
    · rw [double?_eq_none (hh.double_none hd), if_pos hd]
      simp only [Option.toList_some, Option.toList_none, List.length_cons, List.length_nil,
        directPointers, blockPointers] at *
      omega
    · rw [double?_eq_some (hh.double_some (by omega)), if_neg hd]
      simp only [Option.toList_some, List.length_cons, List.length_nil]

theorem dataPointers_eq_some {k : Nat} (hk : k < h.sectors) :
    (h.dataPointers m)[k]? = some (h.pointerAt m k) := by
  have hlen := hh.length_dataPointers
  rw [pointerAt, List.getD_eq_getElem?_getD, List.getElem?_eq_getElem (by omega),
    Option.getD_some]

theorem data_eq_some {k : Nat} (hk : k < h.sectors) :
    (h.data m)[k]? = some (h.sectorAt m k) := by
  rw [data, List.getElem?_map, hh.dataPointers_eq_some hk]
  rfl

theorem sectorAt_mem {k : Nat} (hk : k < h.sectors) : h.sectorAt m k ∈ h.data m :=
  List.mem_of_getElem? (hh.data_eq_some hk)

theorem sectorAt_inj (hnodup : (h.data m).Nodup) {k l : Nat} (hk : k < h.sectors)
    (hl : l < h.sectors) (heq : h.sectorAt m k = h.sectorAt m l) : k = l := by
  have hk' := hh.data_eq_some hk
  rw [heq, ← hh.data_eq_some hl] at hk'
  exact (List.getElem?_inj (by rw [hh.length_data]; exact hk) hnodup).mp hk'

/-! ## The sector of an offset -/

omit hh in
theorem dataPointer_direct {k : Nat} (hk : k < directPointers) (hs : k < h.sectors) :
    (h.dataPointers m)[k]? = some h.direct[k] := by
  have hlen := length_directSectors (h := h)
  rw [dataPointers, List.append_assoc, List.getElem?_append_left (by omega), directSectors,
    List.getElem?_take_of_lt hs, Vector.getElem?_toList, Vector.getElem?_eq_getElem]

theorem dataPointer_single {k : Nat} (hk : directPointers ≤ k)
    (hk' : k < directPointers + blockPointers) (hs : k < h.sectors) :
    (h.dataPointers m)[k]? = (IndexBlock.stored m h.single).named[k - directPointers]? := by
  have hlen := length_directSectors (h := h)
  have hlen' := hh.length_singlePointers
  have hd : h.directSectors.length = directPointers := by
    simp only [directPointers] at *
    omega
  have hsingle : h.singlePointers m = (IndexBlock.stored m h.single).named := by
    rw [singlePointers, single?_eq_some (hh.single_some (by omega))]
  rw [dataPointers, List.append_assoc, List.getElem?_append_right (by omega), hd,
    List.getElem?_append_left (by
      rw [hlen']
      simp only [directPointers, blockPointers] at *
      omega), hsingle]

theorem dataPointer_double {k : Nat} {c : Int32} (hk : directPointers + blockPointers ≤ k)
    (hs : k < h.sectors)
    (hc : (h.children m)[(k - directPointers - blockPointers) / blockPointers]? = some c) :
    (h.dataPointers m)[k]?
      = (IndexBlock.stored m c).named[(k - directPointers - blockPointers) % blockPointers]? := by
  have hlen := length_directSectors (h := h)
  have hlen' := hh.length_singlePointers
  have hchild := hh.length_child hc
  have hfirst : (h.directSectors ++ h.singlePointers m).length
      = directPointers + blockPointers := by
    rw [List.length_append, hlen, hlen']
    simp only [directPointers, blockPointers] at *
    omega
  have hsplit := Nat.div_add_mod (k - directPointers - blockPointers) blockPointers
  have hmod := Nat.mod_lt (k - directPointers - blockPointers) (show 0 < blockPointers by decide)
  rw [dataPointers, List.getElem?_append_right (by omega), hfirst]
  have hpos : k - (directPointers + blockPointers)
      = blockPointers * ((k - directPointers - blockPointers) / blockPointers)
        + (k - directPointers - blockPointers) % blockPointers := by
    rw [hsplit]
    omega
  rw [hpos]
  refine getElem?_flatMap_chunks _ (fun q a hq hlt => hh.child_full hq hlt) hc ?_
  rw [hchild]
  simp only [directPointers, blockPointers] at *
  omega

theorem exists_child {k : Nat} (hk : directPointers + blockPointers ≤ k) (hs : k < h.sectors) :
    ∃ c, (h.children m)[(k - directPointers - blockPointers) / blockPointers]? = some c := by
  have hlt : (k - directPointers - blockPointers) / blockPointers < (h.children m).length := by
    rw [hh.length_children]
    simp only [directPointers, blockPointers] at *
    omega
  exact ⟨_, List.getElem?_eq_getElem hlt⟩

variable {count : Nat}

/-- The byte at an offset lies in the data sector of that number. -/
theorem follows_sectorOf {offset : Nat} (ho : offset < h.length) :
    Follows m count (h.sectorOf offset) (Script.reads (h.route m (offset / sectorSize)))
      (.ok (h.pointerAt m (offset / sectorSize))) := by
  have hs := hh.lt_sectors ho
  have hp := hh.dataPointers_eq_some hs
  generalize h.pointerAt m (offset / sectorSize) = p at hp ⊢
  rw [sectorOf, if_neg (by omega)]
  generalize offset / sectorSize = k at hs hp ⊢
  unfold locate route
  by_cases hd : k < directPointers
  · rw [dif_pos hd, if_pos hd]
    rw [dataPointer_direct hd hs] at hp
    cases hp
    exact Follows.pure _
  rw [dif_neg hd, if_neg hd]
  by_cases hk : k < directPointers + blockPointers
  · rw [if_pos hk, if_pos hk]
    rw [hh.dataPointer_single (by omega) hk hs] at hp
    exact Follows.bind_nil (IndexBlock.follows_fetch _) (Follows.of_ok (IndexBlock.pointer_eq hp))
  · rw [if_neg hk, if_neg hk]
    obtain ⟨c, hc⟩ := hh.exists_child (by omega) hs
    rw [hh.dataPointer_double (by omega) hs hc] at hp
    have hnamed : (IndexBlock.stored m h.double).named[
        (k - directPointers - blockPointers) / blockPointers]? = some c := by
      rw [children, double?_eq_some (hh.double_some (by omega))] at hc
      exact hc
    rw [List.getD_eq_getElem?_getD, hc]
    refine Follows.bind_reads (IndexBlock.follows_fetch h.double) ?_
    refine Follows.ok_bind (IndexBlock.pointer_eq hnamed) ?_
    exact Follows.bind_nil (IndexBlock.follows_fetch c) (Follows.of_ok (IndexBlock.pointer_eq hp))

theorem route_sublist {k : Nat} (hs : k < h.sectors) : (h.route m k).Sublist (h.index m) := by
  unfold route index indexPointers
  by_cases hd : k < directPointers
  · rw [if_pos hd]
    exact List.nil_sublist _
  rw [if_neg hd, single?_eq_some (hh.single_some (by omega))]
  by_cases hk : k < directPointers + blockPointers
  · rw [if_pos hk]
    exact List.singleton_sublist.mpr (List.mem_cons_self ..)
  · obtain ⟨c, hc⟩ := hh.exists_child (by omega) hs
    rw [if_neg hk, double?_eq_some (hh.double_some (by omega)), List.getD_eq_getElem?_getD, hc]
    refine List.Sublist.cons _ (List.Sublist.cons_cons _ (List.singleton_sublist.mpr ?_))
    exact List.mem_map_of_mem (List.mem_of_getElem? hc)

theorem route_subset {k : Nat} (hs : k < h.sectors) : h.route m k ⊆ h.index m :=
  (hh.route_sublist hs).subset

theorem legible : h.Legible m where
  single_le p hp := by
    by_cases hs : h.sectors ≤ directPointers
    · rw [single?_eq_none (hh.single_none hs)] at hp
      cases hp
    · rw [single?_eq_some (hh.single_some (by omega))] at hp
      cases hp
      exact hh.single_le (by omega)
  double_le p hp := by
    by_cases hd : h.sectors < directPointers + blockPointers
    · rw [double?_eq_none (hh.double_none hd)] at hp
      cases hp
    · rw [double?_eq_some (hh.double_some (by omega))] at hp
      cases hp
      exact hh.double_le (by omega)
  child_le _ := hh.child_le

end Intact

/-! ## All sectors of a file -/

theorem double_sublist_index : (h.double?.toList.map Word.wide).Sublist (h.index m) :=
  ((List.sublist_append_right ..).trans (List.sublist_append_left ..)).map _

theorem double_subset_index : h.double?.toList.map Word.wide ⊆ h.index m :=
  double_sublist_index.subset

theorem follows_entriesOf {count : Nat} {blocks : List Int32}
    (hb : ∀ c ∈ blocks, Word.wide (IndexBlock.stored m c).count ≤ blockPointers) :
    Follows m count (entriesOf blocks) (Script.reads (blocks.map Word.wide))
      (.ok (blocks.flatMap fun c => (IndexBlock.stored m c).named)) := by
  induction blocks with
  | nil => exact Follows.pure _
  | cons c blocks ih =>
    refine Follows.bind_reads (IndexBlock.follows_entriesAt (hb c (List.mem_cons_self ..))) ?_
    exact (ih fun c hc => hb c (List.mem_cons_of_mem _ hc)).map

namespace Legible

variable {count : Nat} (hl : h.Legible m)
include hl

theorem follows_singleSectors : Follows m count h.singleSectors
    (Script.reads (h.single?.toList.map Word.wide)) (.ok (h.singlePointers m)) := by
  unfold singleSectors singlePointers
  cases hs : h.single? with
  | none => exact Follows.pure _
  | some p => exact IndexBlock.follows_entriesAt (hl.single_le p hs)

theorem follows_doubleSectors : Follows m count h.doubleSectors
    (Script.reads ((h.double?.toList ++ h.children m).map Word.wide))
    (.ok (h.doublePointers m)) := by
  have hchildren : Follows m count (entriesOf (h.children m)) _ _ := follows_entriesOf hl.child_le
  unfold doubleSectors doublePointers
  cases hd : h.double? with
  | none =>
    have hnil : h.children m = [] := by rw [children, hd]
    rw [hnil]
    exact Follows.pure _
  | some p =>
    have hnamed : h.children m = (IndexBlock.stored m p).named := by rw [children, hd]
    refine Follows.bind_reads (IndexBlock.follows_entriesAt (hl.double_le p hd)) ?_
    rw [← hnamed]
    exact hchildren

theorem follows_dataSectors :
    Follows m count h.dataSectors (Script.reads (h.index m)) (.ok (h.dataPointers m)) := by
  refine Follows.of_script (Follows.bind_reads hl.follows_singleSectors
    hl.follows_doubleSectors.map) ?_
  rw [← Script.reads_append, ← List.map_append, ← List.append_assoc]
  rfl

theorem follows_indexSectors :
    Follows m count h.indexSectors (Script.reads (h.double?.toList.map Word.wide))
      (.ok (h.indexPointers m)) := by
  unfold indexSectors indexPointers children
  cases hd : h.double? with
  | none =>
    rw [Option.toList_none, List.append_nil, List.append_nil]
    exact Follows.pure _
  | some p =>
    rw [Option.toList_some, List.append_assoc]
    exact Follows.map (f := fun children => h.single?.toList ++ ([p] ++ children))
      (IndexBlock.follows_entriesAt (hl.double_le p hd))

end Legible

namespace Intact

variable {count : Nat} (hh : h.Intact m)
include hh

theorem follows_dataSectors :
    Follows m count h.dataSectors (Script.reads (h.index m)) (.ok (h.dataPointers m)) :=
  hh.legible.follows_dataSectors

theorem follows_indexSectors :
    Follows m count h.indexSectors (Script.reads (h.double?.toList.map Word.wide))
      (.ok (h.indexPointers m)) :=
  hh.legible.follows_indexSectors

end Intact

/-! ## What the layout depends on -/

variable {m' : Medium}

theorem stored_block_congr {p : Int32} (hp : m'.get (Word.wide p) = m.get (Word.wide p)) :
    IndexBlock.stored m' p = IndexBlock.stored m p := by
  rw [IndexBlock.stored, IndexBlock.stored, hp]

section Congruence

variable (hm : ∀ s ∈ h.index m, m'.get s = m.get s)
include hm

theorem stored_of_mem_indexPointers {p : Int32} (hp : p ∈ h.indexPointers m) :
    IndexBlock.stored m' p = IndexBlock.stored m p :=
  stored_block_congr (hm _ (List.mem_map_of_mem hp))

theorem singlePointers_congr : h.singlePointers m' = h.singlePointers m := by
  unfold singlePointers
  cases hs : h.single? with
  | none => rfl
  | some p =>
    dsimp only
    rw [stored_of_mem_indexPointers hm (by simp [indexPointers, hs])]

theorem children_congr : h.children m' = h.children m := by
  unfold children
  cases hd : h.double? with
  | none => rfl
  | some p =>
    dsimp only
    rw [stored_of_mem_indexPointers hm (by simp [indexPointers, hd])]

theorem doublePointers_congr : h.doublePointers m' = h.doublePointers m := by
  unfold doublePointers
  rw [children_congr hm]
  rw [List.flatMap_def, List.flatMap_def]
  refine congrArg _ (List.map_congr_left fun c hc => ?_)
  rw [stored_of_mem_indexPointers hm (by simp [indexPointers, hc])]

theorem dataPointers_congr : h.dataPointers m' = h.dataPointers m := by
  rw [dataPointers, dataPointers, singlePointers_congr hm, doublePointers_congr hm]

theorem indexPointers_congr : h.indexPointers m' = h.indexPointers m := by
  rw [indexPointers, indexPointers, children_congr hm]

theorem data_congr : h.data m' = h.data m := by
  rw [data, data, dataPointers_congr hm]

theorem index_congr : h.index m' = h.index m := by
  rw [index, index, indexPointers_congr hm]

theorem pointerAt_congr (k : Nat) : h.pointerAt m' k = h.pointerAt m k := by
  rw [pointerAt, pointerAt, dataPointers_congr hm]

theorem sectorAt_congr (k : Nat) : h.sectorAt m' k = h.sectorAt m k := by
  rw [sectorAt, sectorAt, pointerAt_congr hm]

theorem route_congr (k : Nat) : h.route m' k = h.route m k := by
  rw [route, route, children_congr hm]

theorem Intact.congr (hh : h.Intact m) : h.Intact m' where
  length_le := hh.length_le
  sectors_eq := hh.sectors_eq
  single_none := hh.single_none
  single_some := hh.single_some
  single_count hs := by
    rw [stored_of_mem_indexPointers hm
      (by simp [indexPointers, single?_eq_some (hh.single_some hs)])]
    exact hh.single_count hs
  double_none := hh.double_none
  double_some := hh.double_some
  double_count hd := by
    rw [stored_of_mem_indexPointers hm
      (by simp [indexPointers, double?_eq_some (hh.double_some hd)])]
    exact hh.double_count hd
  child_count q c hc := by
    rw [children_congr hm] at hc
    rw [stored_of_mem_indexPointers hm (by simp [indexPointers, List.mem_of_getElem? hc])]
    exact hh.child_count q c hc

end Congruence

end Header

end IndexedDisk
