import IndexedDisk.IndexBlock

/-!
# File headers

A header fills one sector and says where the data of one file lies. The first 28 data sectors are
named in it, the next 31 in a single index block, and the rest in blocks that a double index block
names. A header may hold any words: nothing here supposes that it was made by an allocation. A
header and its sector determine each other (`ofSector_toSector`, `toSector_ofSector`).
-/

namespace IndexedDisk

/-- The contents of a file header. -/
structure Header where
  /-- Bytes in the file. -/
  byteCount : Int32
  /-- Data sectors of the file. -/
  sectorCount : Int32
  /-- The first data sectors. -/
  direct : Vector Int32 28
  /-- The block of the single tier, or `noSector`. -/
  single : Int32
  /-- The block of the double tier, or `noSector`. -/
  double : Int32
deriving DecidableEq

/-- Where the pointer to one data sector of a file is kept. -/
inductive Place where
  /-- The header names the sector itself. -/
  | direct (sector : Int32)
  /-- Pointer `index` of the single block. -/
  | single (block : Int32) (index : Nat)
  /-- Pointer `index` of child `child` of the double block. -/
  | double (block : Int32) (child index : Nat)
deriving DecidableEq, Repr

namespace Header

/-- The header of a file of no bytes. -/
def empty : Header where
  byteCount := 0
  sectorCount := 0
  direct := Vector.replicate 28 noSector
  single := noSector
  double := noSector

instance : Inhabited Header := ⟨empty⟩

/-- The header that a sector holds. Every sector holds one. -/
def ofSector (s : Sector) : Header :=
  { byteCount := s.word 0
    sectorCount := s.word 1
    direct := Vector.ofFn fun i => s.word (i.val + 2)
    single := s.word 30
    double := s.word 31 }

/-- The sector that holds a header. -/
def toSector (h : Header) : Sector :=
  Sector.ofWords (Vector.ofFn fun i =>
    if h0 : i.val = 0 then h.byteCount
    else if h1 : i.val = 1 then h.sectorCount
    else if h30 : i.val < 30 then h.direct[i.val - 2]
    else if i.val = 30 then h.single
    else h.double)

@[simp] theorem ofSector_toSector (h : Header) : ofSector h.toSector = h := by
  obtain ⟨byteCount, sectorCount, direct, single, double⟩ := h
  simp only [ofSector, toSector, mk.injEq]
  refine ⟨by simp, by simp, Vector.ext fun i hi => ?_, by simp, by simp⟩
  have h : i + 2 < 30 := by omega
  rw [Vector.getElem_ofFn, Sector.word_ofWords _ (by omega), Vector.getElem_ofFn]
  simp [h]

@[simp] theorem toSector_ofSector (s : Sector) : (ofSector s).toSector = s := by
  conv => rhs; rw [← Sector.ofWords_words s]
  rw [toSector, ofSector]
  refine congrArg Sector.ofWords (Vector.ext fun i hi => ?_)
  by_cases h0 : i = 0
  · simp [h0]
  by_cases h1 : i = 1
  · simp [h1]
  by_cases h30 : i < 30
  · have hi : i - 2 + 2 = i := by omega
    simp [h0, h1, h30, hi]
  by_cases h : i = 30
  · simp [h]
  · obtain rfl : i = 31 := by omega
    simp

/-- Reads the header at `p`. -/
def fetch (p : Int32) : DiskM Header := do
  return ofSector (← Disk.readSector (Word.wide p))

/-- Writes a header to `p`. -/
def store (h : Header) (p : Int32) : DiskM Unit :=
  Disk.writeSector (Word.wide p) h.toSector

/-- Bytes in the file. -/
def length (h : Header) : Nat := Word.wide h.byteCount

/-- Data sectors of the file. -/
def sectors (h : Header) : Nat := Word.wide h.sectorCount

/-- The block of the single tier, if there is one. -/
def single? (h : Header) : Option Int32 :=
  if h.single = noSector then none else some h.single

/-- The block of the double tier, if there is one. -/
def double? (h : Header) : Option Int32 :=
  if h.double = noSector then none else some h.double

/-- The data sectors that the header names itself. -/
def directSectors (h : Header) : List Int32 :=
  h.direct.toList.take h.sectors

/-! ## From an offset to a sector -/

/-- Where the pointer to data sector `index` of the file is kept. -/
def locate (h : Header) (index : Nat) : Place :=
  if hd : index < directPointers then .direct h.direct[index]
  else if index < directPointers + blockPointers then .single h.single (index - directPointers)
  else
    let rest := index - directPointers - blockPointers
    .double h.double (rest / blockPointers) (rest % blockPointers)

/-- Follows a place to the sector that it names. -/
def follow : Place → DiskM Int32
  | .direct sector => pure sector
  | .single block index => do
    let b ← IndexBlock.fetch block
    b.pointer index
  | .double block child index => do
    let b ← IndexBlock.fetch block
    let c ← IndexBlock.fetch (← b.pointer child)
    c.pointer index

/-- The sector that holds the byte at `offset` of the file. -/
def sectorOf (h : Header) (offset : Nat) : DiskM Int32 :=
  if h.length ≤ offset then refuse (.outOfRange offset h.length)
  else follow (h.locate (offset / sectorSize))

/-! ## All sectors of a file -/

/-- The sectors that the blocks in a list name, block by block. -/
def entriesOf : List Int32 → DiskM (List Int32)
  | [] => pure []
  | block :: blocks => do
    let sectors ← IndexBlock.entriesAt block
    let rest ← entriesOf blocks
    return sectors ++ rest

/-- The data sectors of the single tier. -/
def singleSectors (h : Header) : DiskM (List Int32) :=
  match h.single? with
  | none => pure []
  | some block => IndexBlock.entriesAt block

/-- The data sectors of the double tier. -/
def doubleSectors (h : Header) : DiskM (List Int32) :=
  match h.double? with
  | none => pure []
  | some block => do
    let children ← IndexBlock.entriesAt block
    entriesOf children

/-- The data sectors of the file, in order. -/
def dataSectors (h : Header) : DiskM (List Int32) := do
  let single ← h.singleSectors
  let double ← h.doubleSectors
  return h.directSectors ++ single ++ double

/-- The sectors of the file that hold index blocks. -/
def indexSectors (h : Header) : DiskM (List Int32) :=
  match h.double? with
  | none => pure h.single?.toList
  | some block => do
    let children ← IndexBlock.entriesAt block
    return h.single?.toList ++ block :: children

end Header

end IndexedDisk
