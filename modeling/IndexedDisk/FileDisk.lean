import IndexedDisk.Disk

/-!
# Disks on files

A disk is kept in a file of bytes, which has a place that each of its transfers starts from and moves
on. To transfer a sector, the disk seeks the start of the sector in the file and then reads or writes
from there; where the place was before does not matter. Sectors are cleared in a row, from the start
of the file on.

A disk on a file does what the disk on the medium of the file does, so that everything else is said of
a `Disk`. Here only the place is added, and that a place is a 64-bit number.
-/

namespace IndexedDisk

/-- A file of bytes that is open, and the place where its next transfer starts. -/
structure ByteFile where
  medium : Medium
  place : Nat := 0
deriving Inhabited

/-- A request to a file. -/
abbrev ByteFileM : Type → Type := EStateM DeviceError ByteFile

namespace ByteFile

/-- Moves the place. -/
def seek (place : Nat) : ByteFileM Unit := fun file => .ok () { file with place }

/-- Reads the next `n` bytes. A file that ends before them is read to its end. -/
def readExact (n : Nat) : ByteFileM (Array UInt8) := fun ⟨medium, place⟩ =>
  if place + n ≤ medium.size then
    .ok (Array.ofFn fun i : Fin n => medium.byteAt (place + i)) ⟨medium, place + n⟩
  else .error .endOfMedium ⟨medium, max place medium.size⟩

/-- Writes bytes from the place on. A gap before them is filled with zeros. -/
def writeAll (bytes : Array UInt8) : ByteFileM Unit := fun ⟨medium, place⟩ =>
  .ok () ⟨medium.write place bytes, place + bytes.size⟩

/-- Writes `n` sectors of zeros. -/
def zeroSectors : Nat → ByteFileM Unit
  | 0 => pure ()
  | n + 1 => do
    writeAll Sector.zero.toArray
    zeroSectors n

end ByteFile

/-- A disk of `count` sectors on a file. -/
structure FileDisk where
  file : ByteFile
  count : Nat
deriving Inhabited

/-- A request to a disk on a file. -/
abbrev FileDiskM : Type → Type := EStateM DeviceError FileDisk

instance : MonadLift ByteFileM FileDiskM where
  monadLift act := fun ⟨file, count⟩ =>
    match act file with
    | .ok a file => .ok a ⟨file, count⟩
    | .error e file => .error e ⟨file, count⟩

namespace FileDisk

/-- The place of sector `s` in a file. -/
def start (s : Nat) : Nat := s * sectorSize % 0x10000000000000000

/-- Refuses a sector that the disk does not have. -/
def checkRange (s : Nat) : FileDiskM Unit := fun disk =>
  if disk.count ≤ s then .error (.outOfRange s) disk else .ok () disk

/-- Reads sector `s` into the first bytes of a buffer and returns the buffer. -/
def read (s : Nat) (buffer : Array UInt8) : FileDiskM (Array UInt8) := do
  checkRange s
  if buffer.size < sectorSize then throw .shortBuffer
  else do
    ByteFile.seek (start s)
    let bytes ← ByteFile.readExact sectorSize
    return Bytes.overlay buffer 0 bytes

/-- Writes the bytes of `data` to sector `s`. -/
def write (s : Nat) (data : Array UInt8) : FileDiskM Unit := do
  checkRange s
  if data.size ≠ sectorSize then throw .wrongLength
  else do
    ByteFile.seek (start s)
    ByteFile.writeAll data

/-- Makes a disk of `count` sectors on the file. If asked to, it clears them first. -/
def build (count : Nat) (clear : Bool) : ByteFileM FileDisk :=
  if count = 0 then throw .noSectors
  else do
    if clear then
      ByteFile.seek 0
      ByteFile.zeroSectors count
    return ⟨← get, count⟩

/-- The disk on the medium of the file, without faults. -/
def disk (d : FileDisk) : Disk := { medium := d.file.medium, count := d.count }

end FileDisk

end IndexedDisk
