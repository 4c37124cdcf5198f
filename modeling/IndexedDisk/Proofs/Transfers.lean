import IndexedDisk.Proofs.Contents
import IndexedDisk.Proofs.Placement
import IndexedDisk.Proofs.Wrapping
import IndexedDisk.Room
import Mathlib.Data.List.Perm.Subperm

/-!
# Reading and writing an open file

What a transfer moves, byte by byte of the whole medium. A file that was allocated has each of its
bytes at an address of its own (`Header.address`), so that a write changes the bytes at the
addresses of its range and no other byte: not the ones beside them in a sector that is written in
part, and not those between the end of the file and the end of its last sector.

* `toList_contents`: the contents of a file are its data sectors, cut at its length.
* `byteAt_writeScript`: the bytes that a write leaves alone.
* `open_files_read_and_write`: what reads and writes answer and do.
* `writes_overlap`: two sectors that one pointer stands for.
-/

namespace IndexedDisk

namespace Header

/-- Where byte `offset` of the file lies on the medium. -/
def address (m : Medium) (h : Header) (offset : Nat) : Nat :=
  sectorSize * h.sectorAt m (offset / sectorSize) + offset % sectorSize

/-- The header was made by an allocation of `size` bytes from `map`, and its index blocks are as they
were written then. -/
def Allocated (map : SectorMap) (size : Nat) (m : Medium) (h : Header) : Prop :=
  ∃ (disk : Disk) (h₀ : Header) (held : Disk.With Holding),
    allocate size ⟨disk, map, h₀⟩ = .ok () held ∧ held.value.header = h ∧
      ∀ s ∈ h.index held.disk.medium, m.get s = held.disk.medium.get s

variable {map : SectorMap} {size : Nat} {m : Medium} {h : Header}

theorem Allocated.intact (ha : h.Allocated map size m) (hsmall : map.Addressable size) :
    h.Intact m := by
  obtain ⟨disk, h₀, held, hact, rfl, hm⟩ := ha
  exact (laid_of_allocate hsmall hact).intact.congr hm

theorem Allocated.separate (ha : h.Allocated map size m) (hsmall : map.Addressable size) :
    h.Separate m := by
  obtain ⟨disk, h₀, held, hact, rfl, hm⟩ := ha
  rw [Separate, data_congr hm, index_congr hm]
  exact (laid_of_allocate hsmall hact).separate

theorem Allocated.congr (ha : h.Allocated map size m) {m' : Medium}
    (hm : ∀ s ∈ h.index m, m'.get s = m.get s) : h.Allocated map size m' := by
  obtain ⟨disk, h₀, held, hact, rfl, heq⟩ := ha
  refine ⟨disk, h₀, held, hact, rfl, fun s hs => ?_⟩
  rw [hm s (by rw [index_congr heq]; exact hs), heq s hs]

theorem exists_allocated (size n : Nat) (hsize : size ≤ maxFileSize)
    (hroom : sectorsFor size + indexBlocksFor (sectorsFor size) ≤ n) (hn : n ≤ 0x80000000) :
    ∃ (m : Medium) (h : Header), h.Allocated (.empty n) size m ∧ h.Intact m ∧
      h.Separate m ∧ h.length = size ∧ (∀ s ∈ h.data m ++ h.index m, s < n) ∧
      sectorSize * n ≤ m.size := by
  have htidy : (SectorMap.empty n).Tidy := fun i _ => SectorMap.bit_empty n i
  have hfree : (SectorMap.empty n).free.length = n := by simp [SectorMap.free]
  have hsmall : (SectorMap.empty n).Addressable size := SectorMap.addressable_of_size_le hn size
  have hf := fits_lowestFor hsize (hfree.symm ▸ hroom) hsmall
  have haccept : Disk.Accepts ⟨.replicate (sectorSize * n) 0, n, {}⟩
      ((SectorMap.empty n).blocksFor size) := Disk.accepts_default fun s hs =>
    SectorMap.lt_of_mem_lowestFor (hf.perm_lowestFor.subset (List.mem_append_right _ hs))
  obtain ⟨held, hact⟩ := exists_allocate (SectorMap.freeCount_eq htidy) (hfree.symm ▸ hroom) hf
    haccept .empty
  have hlaid := laid_of_allocate hsmall hact
  refine ⟨held.disk.medium, held.value.header,
    ⟨_, _, held, hact, rfl, fun _ _ => rfl⟩, hlaid.intact, hlaid.separate, hlaid.length_eq,
    fun s hs => ?_, ?_⟩
  · exact SectorMap.lt_of_mem_lowestFor (hlaid.perm.subset hs)
  · exact Nat.le_trans (Nat.le_of_eq (Medium.size_replicate ..).symm) hlaid.size_le

theorem exists_open_allocated (size n : Nat) (hsize : size ≤ maxFileSize)
    (hroom : sectorsFor size + indexBlocksFor (sectorsFor size) ≤ n) (hn : n ≤ 0x80000000) :
    ∃ (m : Medium) (f : OpenFile), f.header.Allocated (.empty n) size m ∧ f.header.Intact m ∧
      f.header.Separate m ∧ f.length = size ∧
      Disk.Readable ⟨m, n, {}⟩ (f.header.data m ++ f.header.index m) ∧
      Disk.Accepts ⟨m, n, {}⟩ (f.header.data m) := by
  obtain ⟨m, h, hf, hh, hsep, hlength, hlt, hm⟩ := exists_allocated size n hsize hroom hn
  exact ⟨m, { sector := 0, header := h }, hf, hh, hsep, hlength, Disk.readable_default hlt hm,
    Disk.accepts_default fun s hs => hlt s (List.mem_append_left _ hs)⟩

/-- A file of two sectors whose numbers differ by `2 ^ 32` has one sector twice. -/
theorem exists_overlapping (m : Medium) : ∃ h : Header,
    h.Allocated (.fullBut 0x100000006 [5, 0x100000005]) 256 m ∧ h.length = 256 ∧
    ∀ m', h.Intact m' ∧ h.dataPointers m' = [5, 5] ∧ h.indexPointers m' = [] := by
  have hfree : (SectorMap.fullBut 0x100000006 [5, 0x100000005]).free = [5, 0x100000005] :=
    SectorMap.free_fullBut (by decide) (by decide)
  have hact := allocate_direct 256 SectorMap.tidy_fullBut (by decide)
    (Nat.le_of_eq (congrArg List.length hfree).symm) ⟨m, 0, {}⟩ .empty
  rw [hfree] at hact
  refine ⟨_, ⟨_, _, _, hact, rfl, fun _ _ => rfl⟩, length_planned (by decide), fun m' =>
    ⟨intact_planned_direct (by decide) m', ?_, indexPointers_planned_direct (by decide) m'⟩⟩
  rw [dataPointers_planned_direct (by decide) (by decide)]
  decide

theorem toList_contents (hh : h.Intact m) : (h.contents m).toList
    = ((h.data m).flatMap fun s => (m.get s).toList).take h.length := by
  apply List.ext_getElem?
  intro o
  rw [List.getElem?_take, Array.getElem?_toList, getElem?_contents]
  by_cases ho : o < h.length
  · have hmod : o % sectorSize < 128 := Nat.mod_lt _ (by decide)
    have hchunk := getElem?_flatMap_chunks (fun s => (m.get s).toList) (k := sectorSize)
      (fun q s _ _ => by simp) (hh.data_eq_some (hh.lt_sectors ho))
      (r := o % sectorSize) (by simpa using hmod)
    rw [Nat.div_add_mod, Vector.getElem?_toList, Vector.getElem?_eq_getElem hmod,
      Medium.getElem_get _ _ hmod] at hchunk
    rw [if_pos ho, if_pos ho, hchunk]
    rfl
  · rw [if_neg ho, if_neg ho]

/-! ## What a write leaves alone -/

theorem sources_writeScript_subset (position : Nat) (data : Array UInt8) (hh : h.Intact m) :
    (h.writeScript m position data).sources ⊆ h.data m ++ h.index m :=
  fun _ hs => mem_writeScript position data hh (Script.mem_sources.mp hs)

section Effect

variable (position : Nat) (data : Array UInt8) (hh : h.Intact m) (hsep : h.Separate m)
include hh hsep

theorem accepts_writeScript {disk : Disk} (hwrite : disk.Accepts (h.data m)) :
    disk.Accepts (h.writeScript m position data).targets :=
  hwrite.mono (targets_writeScript_subset position data hh) (List.subperm_of_subset
    (nodup_targets_writeScript position data hh hsep)
    (targets_writeScript_subset position data hh)).length_le

theorem address_writeScript (o : Nat) :
    h.address ((h.writeScript m position data).medium m) o = h.address m o := by
  rw [address, address, sectorAt_congr fun s hs => index_writeScript position data hh hsep hs]

theorem byteAt_writeScript {a : Nat}
    (ha : ∀ o, position ≤ o → o < min (position + data.size) h.length → a ≠ h.address m o) :
    ((h.writeScript m position data).medium m).byteAt a = m.byteAt a := by
  have hmod : a % sectorSize < 128 := Nat.mod_lt _ (by decide)
  have hsplit : sectorSize * (a / sectorSize) + a % sectorSize = a := Nat.div_add_mod ..
  by_cases hs : a / sectorSize ∈ (h.writeScript m position data).targets
  · -- the byte has an offset in the file, if one past its end
    rw [targets_writeScript] at hs
    obtain ⟨span, hspan, hsector⟩ := List.mem_map.mp hs
    have hbounds := bounds_of_mem_spans hspan
    have hoffset : (sectorSize * (span.offset / sectorSize) + a % sectorSize) / sectorSize
        = span.offset / sectorSize := by
      rw [Nat.mul_add_div (by decide), Nat.div_eq_of_lt hmod, Nat.add_zero]
    have haddress : h.address m (sectorSize * (span.offset / sectorSize) + a % sectorSize) = a := by
      rw [address, hoffset, hsector, Nat.mul_add_mod, Nat.mod_mod, hsplit]
    have hbyte := byte_writeScript position data hh hsep
      (o := sectorSize * (span.offset / sectorSize) + a % sectorSize)
      (by rw [hoffset]; exact hh.lt_sectors (by omega))
    rw [if_neg fun hin => ha _ hin.1 hin.2 haddress.symm] at hbyte
    change Medium.byteAt _ (h.address _ _) = m.byteAt (h.address m _) at hbyte
    rwa [address_writeScript position data hh hsep, haddress] at hbyte
  · rw [← hsplit, ← Medium.getElem_get _ _ hmod, ← Medium.getElem_get _ _ hmod,
      Script.get_medium_of_not_mem hs]

end Effect

end Header

namespace OpenFile

/-- How many of `count` bytes there are in the file from `position` on. -/
def moved (f : OpenFile) (position count : Nat) : Nat :=
  if f.length ≤ position then 0 else min count (f.length - position)

/--
No sum and no index of a transfer of `count` bytes is out of range: not in the file, not in the
buffer, and not in a sector.
-/
structure InBounds (f : OpenFile) (position count : Nat) : Prop where
  sum : position < f.length → position + count < 0x10000000000000000
  file : ∀ span ∈ spans position (min (position + count) f.length),
    span.offset + span.length ≤ f.length
  buffer : ∀ span ∈ spans position (min (position + count) f.length),
    position ≤ span.offset ∧ span.offset - position + span.length ≤ count
  sector : ∀ span ∈ spans position (min (position + count) f.length),
    span.start + span.length ≤ sectorSize

/-- The disk after a write: the data lies over the contents, and no other byte has changed. -/
structure Written (f : OpenFile) (position : Nat) (data : Array UInt8) (disk disk' : Disk) :
    Prop where
  inside : ∀ i < f.moved position data.size,
    (f.header.contents disk'.medium)[position + i]? = data[i]?
  outside : ∀ o, o < position ∨ position + f.moved position data.size ≤ o →
    (f.header.contents disk'.medium)[o]? = (f.header.contents disk.medium)[o]?
  byteAt_eq : ∀ a, (∀ i < f.moved position data.size,
    a ≠ f.header.address disk.medium (position + i)) →
      disk'.medium.byteAt a = disk.medium.byteAt a
  size_eq : disk'.medium.size = disk.medium.size
  count_eq : disk'.count = disk.count

/-- The buffer after a read: it begins with the contents, and the rest has not changed. -/
structure Filled (f : OpenFile) (position : Nat) (buffer buffer' : Array UInt8)
    (disk disk' : Disk) : Prop where
  size_eq : buffer'.size = buffer.size
  inside : ∀ i < f.moved position buffer.size,
    buffer'[i]? = (f.header.contents disk.medium)[position + i]?
  outside : ∀ i, f.moved position buffer.size ≤ i → buffer'[i]? = buffer[i]?
  medium_eq : disk'.medium = disk.medium
  count_eq : disk'.count = disk.count

variable {m : Medium} {count : Nat} {p : FaultPlan} {f : OpenFile} {position n : Nat}

theorem moved_eq (f : OpenFile) (position n : Nat) :
    min (position + n) f.header.length - position = f.moved position n := by
  unfold moved length
  split <;> omega

theorem inBounds (hh : f.header.Intact m) (position : Nat) (hn : n ≤ maxRoom) :
    f.InBounds position n where
  sum hlt := by
    have hle : f.length ≤ maxFileSize := hh.length_le
    simp only [maxFileSize, maxFileSectors, sectorSize, directPointers, blockPointers, maxRoom] at *
    omega
  file span hspan := by
    have := bounds_of_mem_spans hspan
    omega
  buffer span hspan := by
    have := bounds_of_mem_spans hspan
    omega
  sector span hspan := (bounds_of_mem_spans hspan).2.2.2

theorem InBounds.bound (hb : f.InBounds position n) :
    f.header.length ≤ position ∨ position + n < 0x10000000000000000 :=
  (Nat.lt_or_ge position f.length).symm.imp_right hb.sum

theorem written_writeScript (hh : f.header.Intact m) (hsep : f.header.Separate m)
    (hcovered : ∀ s ∈ f.header.data m, sectorSize * (s + 1) ≤ m.size) (position : Nat)
    (data : Array UInt8) (q : FaultPlan) : f.Written position data ⟨m, count, p⟩
      ⟨(f.header.writeScript m position data).medium m, count, q⟩ := by
  have hcontents := Header.contents_writeScript position data hh hsep
  have hmoved := f.moved_eq position data.size
  exact {
    inside := fun i hi => by
      rw [hcontents, Bytes.getElem?_overlay, Header.size_contents, if_pos (by omega),
        Nat.add_sub_cancel_left]
    outside := fun o ho => by
      rw [hcontents, Bytes.getElem?_overlay, Header.size_contents, if_neg (by omega)]
    byteAt_eq := fun a ha => Header.byteAt_writeScript position data hh hsep fun o hle hlt => by
      have heq : position + (o - position) = o := by omega
      exact heq ▸ ha (o - position) (by omega)
    size_eq := Script.size_medium_of_covered fun s hs =>
      hcovered s (Header.targets_writeScript_subset position data hh hs)
    count_eq := rfl }

theorem medium_writeScript_of_eq (hh : f.header.Intact m) (hsep : f.header.Separate m)
    (hcovered : ∀ s ∈ f.header.data m, sectorSize * (s + 1) ≤ m.size) {data : Array UInt8}
    (hdata : ∀ i < f.moved position data.size,
      data[i]? = (f.header.contents m)[position + i]?) :
    (f.header.writeScript m position data).medium m = m := by
  obtain ⟨inside, -, byteAt_eq, size_eq, -⟩ := @written_writeScript m 0 {} f hh hsep hcovered
    position data {}
  have hmoved := f.moved_eq position data.size
  refine Medium.ext_byteAt size_eq fun a => ?_
  by_cases ha : ∃ i < f.moved position data.size, a = f.header.address m (position + i)
  · obtain ⟨i, hi, rfl⟩ := ha
    have hbyte := inside i hi
    rw [hdata i hi, Header.getElem?_contents, Header.getElem?_contents, if_pos (by omega),
      if_pos (by omega)] at hbyte
    have hbyte : Medium.byteAt _ (f.header.address _ _) = m.byteAt (f.header.address m _) :=
      Option.some.inj hbyte
    rwa [Header.address_writeScript _ _ hh hsep] at hbyte
  · exact byteAt_eq a fun i hi heq => ha ⟨i, hi, heq⟩

section Sequences

variable {α β : Type} (hh : f.header.Intact m) (hsep : f.header.Separate m)
  (hread : Disk.Readable ⟨m, count, p⟩ (f.header.data m ++ f.header.index m))
  (hwrite : Disk.Accepts ⟨m, count, p⟩ (f.header.data m)) {data : Array UInt8}
include hh hsep hread hwrite

theorem exists_write_read {write : DiskM Unit} {read : DiskM β} {b : β} {sectors : List Nat}
    (hstore : Follows m count write (f.header.writeScript m position data) (.ok ()))
    (hsub : sectors ⊆ f.header.data m ++ f.header.index m)
    (hfetch : Follows ((f.header.writeScript m position data).medium m) count read
      (Script.reads sectors) (.ok b)) :
    ∃ q, (do write; read) ⟨m, count, p⟩
      = .ok b ⟨(f.header.writeScript m position data).medium m, count, q⟩ := by
  have hboth : Follows m count (do write; read) _ _ := hstore.bind hfetch
  have hact := hboth.eval_of_served (p := p)
    (by
      rw [Script.sources_append, Script.sources_reads]
      exact hread.delivers (List.append_subset.mpr
        ⟨Header.sources_writeScript_subset position data hh, hsub⟩))
    (by
      rw [Script.targets_append, Script.targets_reads, List.append_nil]
      exact Header.accepts_writeScript position data hh hsep hwrite)
  rw [Script.medium_append, Script.medium_reads] at hact
  exact ⟨_, hact⟩

theorem exists_read_write {read : DiskM α} {write : α → DiskM β} {a : α} {b : β}
    {sectors : List Nat} (hsub : sectors ⊆ f.header.data m ++ f.header.index m)
    (hfetch : Follows m count read (Script.reads sectors) (.ok a))
    (hstore : Follows m count (write a) (f.header.writeScript m position data) (.ok b))
    (hdata : ∀ i < f.moved position data.size,
      data[i]? = (f.header.contents m)[position + i]?) :
    ∃ q, (read >>= write) ⟨m, count, p⟩ = .ok b ⟨m, count, q⟩ := by
  have hact := (hfetch.bind_reads hstore).eval_of_served (p := p)
    (by
      rw [Script.sources_append, Script.sources_reads]
      exact hread.delivers (List.append_subset.mpr
        ⟨hsub, Header.sources_writeScript_subset position data hh⟩))
    (by
      rw [Script.targets_append, Script.targets_reads, List.nil_append]
      exact Header.accepts_writeScript position data hh hsep hwrite)
  rw [Script.medium_append, Script.medium_reads, medium_writeScript_of_eq hh hsep
    (fun s hs => hread.covered s (List.mem_append_left _ hs)) hdata] at hact
  exact ⟨_, hact⟩

end Sequences

theorem exists_writeAt (hh : f.header.Intact m) (hsep : f.header.Separate m)
    (hread : Disk.Readable ⟨m, count, p⟩ (f.header.data m ++ f.header.index m))
    (hwrite : Disk.Accepts ⟨m, count, p⟩ (f.header.data m)) {data : Array UInt8}
    (hb : f.InBounds position data.size) :
    ∃ disk', f.writeAt position data ⟨m, count, p⟩ = .ok (f.moved position data.size) disk' ∧
      f.Written position data ⟨m, count, p⟩ disk' := by
  have hact := (hh.follows_writeAt hsep position data hb.bound).eval_of_served
    (hread.delivers (Header.sources_writeScript_subset position data hh))
    (Header.accepts_writeScript position data hh hsep hwrite)
  rw [moved_eq] at hact
  exact ⟨_, hact, written_writeScript hh hsep
    (fun s hs => hread.covered s (List.mem_append_left _ hs)) position data _⟩

theorem exists_readAt (hh : f.header.Intact m)
    (hread : Disk.Readable ⟨m, count, p⟩ (f.header.data m ++ f.header.index m))
    {buffer : Array UInt8} (hb : f.InBounds position buffer.size) : ∃ disk' buffer',
      f.readAt position ⟨⟨m, count, p⟩, buffer⟩
        = .ok (f.moved position buffer.size) ⟨disk', buffer'⟩ ∧
      f.Filled position buffer buffer' ⟨m, count, p⟩ disk' := by
  obtain ⟨sectors, hsub, hfollows⟩ := Header.exists_follows_readAt hh hb.bound
  have hact := Disk.eq_ok_of_runOn (hfollows.eval_of_delivers (hread.delivers hsub))
  rw [moved_eq] at hact
  refine ⟨_, _, hact, ?_⟩
  have hmoved := f.moved_eq position buffer.size
  have hsize : ((f.header.contents m).extract position (position + buffer.size)).size
      = f.moved position buffer.size := by
    rw [Array.size_extract, Header.size_contents, hmoved]
  exact {
    size_eq := Bytes.size_overlay ..
    inside := fun i hi => by
      rw [Bytes.getElem?_overlay, hsize, if_pos (by omega), Nat.sub_zero,
        Array.getElem?_extract, Header.size_contents, if_pos (by omega)]
    outside := fun i hi => by
      rw [Bytes.getElem?_overlay, hsize, if_neg (by omega)]
    medium_eq := rfl
    count_eq := rfl }

/--
**Reads and writes of an open file.** Let a file be open whose header was made by an allocation, of
sectors whose numbers fit in pointers, and whose index blocks are as they were written then, on a
disk where all its sectors can be read and its data sectors be written. Its contents are its data
sectors one after the other, cut at its length. Whatever the position and the buffer, a transfer moves
as many bytes as there are in the buffer and from the position on in the file. A write lays them over
the contents from the position on, and no other byte of the medium changes. A read puts the contents
from the position on into the first bytes of the buffer, and changes neither the rest of the buffer
nor the medium. Nothing is out of range on the way, whether in the file, in the buffer or in a sector,
and no sum is too large.
-/
theorem open_files_read_and_write {disk : Disk} {f : OpenFile} {map : SectorMap} {size : Nat}
    (hf : f.header.Allocated map size disk.medium) (hsmall : map.Addressable size)
    (hread : disk.Readable (f.header.data disk.medium ++ f.header.index disk.medium))
    (hwrite : disk.Accepts (f.header.data disk.medium)) (position : Nat) {buffer : Array UInt8}
    (hbuffer : buffer.size ≤ maxRoom) :
    (f.header.contents disk.medium).toList
      = ((f.header.data disk.medium).flatMap fun s => (disk.medium.get s).toList).take f.length ∧
    f.InBounds position buffer.size ∧
    (∃ disk', f.writeAt position buffer disk = .ok (f.moved position buffer.size) disk' ∧
      f.Written position buffer disk disk') ∧
    ∃ disk' buffer', f.readAt position ⟨disk, buffer⟩
        = .ok (f.moved position buffer.size) ⟨disk', buffer'⟩ ∧
      f.Filled position buffer buffer' disk disk' := by
  have hh := hf.intact hsmall
  have hb := inBounds hh position hbuffer
  exact ⟨Header.toList_contents hh, hb,
    exists_writeAt hh (hf.separate hsmall) hread hwrite hb, exists_readAt hh hread hb⟩

/-- Two hundred bytes are written into a file with a double block, across two sector boundaries. -/
theorem open_files_read_and_write_across : ∃ (disk : Disk) (f : OpenFile) (data : Array UInt8),
    f.header.Allocated (.empty 64) 7552 disk.medium ∧ (SectorMap.empty 64).Addressable 7552 ∧
    disk.Readable (f.header.data disk.medium ++ f.header.index disk.medium) ∧
    disk.Accepts (f.header.data disk.medium) ∧ data.size ≤ maxRoom ∧ data.size = 200 ∧
    ∃ disk', f.writeAt 100 data disk = .ok 200 disk' ∧ f.Written 100 data disk disk' := by
  obtain ⟨m, hm⟩ : ∃ m : Medium, sectorSize * 64 ≤ m.size :=
    ⟨.replicate (sectorSize * 64) 0, Nat.le_of_eq (Medium.size_replicate ..).symm⟩
  have hsmall : (SectorMap.empty 64).Addressable 7552 :=
    SectorMap.addressable_of_size_le (by decide) _
  obtain ⟨held, hact⟩ := Header.exists_allocate_full m .empty
  have hlaid := Header.laid_of_allocate hsmall hact
  have hlt : ∀ s ∈ held.value.header.data held.disk.medium
      ++ held.value.header.index held.disk.medium, s < 64 := by
    intro s hs
    have hmem := hlaid.perm.subset hs
    exact SectorMap.lt_of_mem_lowestFor hmem
  have hread : Disk.Readable ⟨held.disk.medium, 64, {}⟩ (held.value.header.data held.disk.medium
      ++ held.value.header.index held.disk.medium) := {
    reads := fun b hb => absurd hb (by simp)
    readable := fun _ _ => rfl
    lt_count := hlt
    covered := fun s hs => Script.reaches (Nat.le_trans hm hlaid.size_le) (hlt s hs) }
  have hwrite : Disk.Accepts ⟨held.disk.medium, 64, {}⟩
      (held.value.header.data held.disk.medium) := {
    lt_count := fun s hs => hlt s (List.mem_append_left _ hs)
    writable := fun _ _ => rfl
    writes := fun b hb => absurd hb (by simp)
    budget := fun _ hn => absurd hn (by simp) }
  have hf : held.value.header.Allocated (.empty 64) 7552 held.disk.medium :=
    ⟨_, _, held, hact, rfl, fun _ _ => rfl⟩
  obtain ⟨data, hdata⟩ : ∃ data : Array UInt8, data.size = 200 :=
    ⟨.replicate 200 7, Array.size_replicate ..⟩
  have hbuffer : data.size ≤ maxRoom := hdata ▸ (by decide)
  have hmoved : moved { sector := 0, header := held.value.header } 100 data.size = 200 := by
    have hlength : held.value.header.length = 7552 := hlaid.length_eq
    rw [moved, length, hlength, hdata]
    rfl
  obtain ⟨-, -, ⟨disk', hwritten, hbytes⟩, -⟩ := @open_files_read_and_write
    ⟨held.disk.medium, 64, {}⟩ { sector := 0, header := held.value.header } _ _ hf hsmall hread
    hwrite 100 _ hbuffer
  rw [hmoved] at hwritten
  exact ⟨⟨held.disk.medium, 64, {}⟩, { sector := 0, header := held.value.header }, data, hf, hsmall,
    hread, hwrite, hbuffer, hdata, disk', hwritten, hbytes⟩

/--
Two sectors of a map whose numbers differ by `2 ^ 32` make a file of which both halves are one sector.
Two hundred and fifty-six bytes that are written to it cannot all be there.
-/
theorem writes_overlap : ∃ (disk : Disk) (f : OpenFile) (data : Array UInt8),
    f.header.Allocated (.fullBut 0x100000006 [5, 0x100000005]) 256 disk.medium ∧
    disk.Readable (f.header.data disk.medium ++ f.header.index disk.medium) ∧
    disk.Accepts (f.header.data disk.medium) ∧ data.size = 256 ∧
    ¬ ∃ disk', f.writeAt 0 data disk = .ok (f.moved 0 data.size) disk' ∧
      f.Written 0 data disk disk' := by
  obtain ⟨m, hm⟩ : ∃ m : Medium, sectorSize * 6 ≤ m.size :=
    ⟨.replicate (sectorSize * 6) 0, Nat.le_of_eq (Medium.size_replicate ..).symm⟩
  obtain ⟨h, hf, hlength, hpointers⟩ := Header.exists_overlapping m
  obtain ⟨f, rfl⟩ : ∃ f : OpenFile, f.header = h := ⟨{ sector := 0, header := h }, rfl⟩
  obtain ⟨data, hsize, hne⟩ : ∃ data : Array UInt8, data.size = 256 ∧ data[0]? ≠ data[128]? :=
    ⟨.replicate 128 1 ++ .replicate 128 2, by simp, by simp⟩
  have hdata : f.header.data m = [5, 5] := congrArg (List.map Word.wide) (hpointers m).2.1
  have hindex : f.header.index m = [] := congrArg (List.map Word.wide) (hpointers m).2.2
  refine ⟨⟨m, 6, {}⟩, f, data, hf, ?_, ?_, hsize, ?_⟩
  · exact Disk.readable_default (by rw [hdata, hindex]; decide) hm
  · exact Disk.accepts_default (by rw [hdata]; decide)
  rintro ⟨disk', -, hwritten⟩
  have hmoved : f.moved 0 data.size = 256 := by
    rw [moved, length, hlength, hsize]
    rfl
  -- both halves of the file are sector 5, whatever was written to it
  have hbyte : f.header.byte disk'.medium 0 = f.header.byte disk'.medium 128 := by
    simp only [Header.byte, Header.sectorAt, Header.pointerAt, (hpointers disk'.medium).2.1]
    rfl
  have hfirst := hwritten.inside 0 (by omega)
  have hsecond := hwritten.inside 128 (by omega)
  rw [Nat.zero_add, Header.getElem?_contents, if_pos (by omega)] at hfirst hsecond
  exact hne (hfirst.symm.trans ((congrArg some hbyte).trans hsecond))

end OpenFile

end IndexedDisk
