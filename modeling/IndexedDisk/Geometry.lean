/-!
# Geometry

The sizes that fix the layout of a disk: how long a sector is, how many sectors each tier of a
file's index reaches, how large a directory is, and which sectors hold the two headers that
everything else is found from.
-/

namespace IndexedDisk

/-- Bytes in a sector, the unit of every transfer. -/
abbrev sectorSize : Nat := 128

/-- Data sectors that a header names itself: it has 32 words and keeps four of them. -/
abbrev directPointers : Nat := 28

/-- Sectors that an index block names: it has 32 words and keeps one of them for their count. -/
abbrev blockPointers : Nat := 31

/-- Data sectors that the direct, single and double tiers reach together. -/
abbrev maxFileSectors : Nat := directPointers + blockPointers + blockPointers * blockPointers

/-- Bytes in the largest file. -/
abbrev maxFileSize : Nat := maxFileSectors * sectorSize

/-- Slots in every directory that is stored in a volume. -/
abbrev directorySlots : Nat := 10

/-- Bytes in the longest name. -/
abbrev maxNameLength : Nat := 19

/-- Bytes in a stored directory entry. -/
abbrev entrySize : Nat := 32

/-- Bytes in the file of a directory. -/
abbrev directoryFileSize : Nat := directorySlots * entrySize

/-- The sector of the header of the sector map. -/
abbrev mapSector : Int32 := 0

/-- The sector of the header of the root directory. -/
abbrev rootSector : Int32 := 1

/-- The pointer that names no sector. -/
abbrev noSector : Int32 := -1

/-- Sectors that hold `bytes` bytes. -/
def sectorsFor (bytes : Nat) : Nat :=
  (bytes + (sectorSize - 1)) / sectorSize

/--
Index blocks of a file with `sectors` data sectors. A single block that is full opens the double
tier, even when no sector is left over for it.
-/
def indexBlocksFor (sectors : Nat) : Nat :=
  if sectors ≤ directPointers then 0
  else if sectors < directPointers + blockPointers then 1
  else 2 + (sectors - directPointers - blockPointers + (blockPointers - 1)) / blockPointers

end IndexedDisk
