import IndexedDisk.Failure
import IndexedDisk.Medium

/-!
# The disk

A disk is a medium divided into `count` sectors, with a plan of the faults that it shows. Every
transfer moves one whole sector.

* A planned fault comes before every other check; then the sector must be one of the disk's, then
  the buffer must fit, and a read needs all bytes of the sector in the medium.
* A request that fails leaves the medium as it was.
* `DeviceM` is a request to the disk alone and `DiskM` one that can be refused for other reasons.
  `Disk.With` adds the value that a request works on, so that what it did before it failed can be
  told.
-/

namespace IndexedDisk

/--
Which transfers fail. The lists give the outcomes of the next reads and of the next writes, true
for one that fails; the predicates name sectors that always fail; after `budget` more successful
writes every write fails.
-/
structure FaultPlan where
  reads : List Bool := []
  unreadable : Nat → Bool := fun _ => false
  writes : List Bool := []
  unwritable : Nat → Bool := fun _ => false
  budget : Option Nat := none
  sync : Bool := false
deriving Inhabited

namespace FaultPlan

/-- The next read fails if it is of sector `s`. -/
def readFails (p : FaultPlan) (s : Nat) : Bool :=
  p.reads.headD false || p.unreadable s

/-- The next write fails if it is to sector `s`. -/
def writeFails (p : FaultPlan) (s : Nat) : Bool :=
  p.writes.headD false || p.unwritable s || p.budget == some 0

/-- The plan once a read was tried. -/
def afterRead (p : FaultPlan) : FaultPlan :=
  { p with reads := p.reads.tail }

/-- The plan once a write was tried and failed. -/
def afterFailedWrite (p : FaultPlan) : FaultPlan :=
  { p with writes := p.writes.tail }

/-- The plan once a write was done. -/
def afterWrite (p : FaultPlan) : FaultPlan :=
  { p with writes := p.writes.tail, budget := p.budget.map (· - 1) }

end FaultPlan

/-- A medium divided into sectors, and the faults it will show. -/
structure Disk where
  medium : Medium
  count : Nat
  faults : FaultPlan := {}
deriving Inhabited

/-- A request to the disk alone. -/
abbrev DeviceM : Type → Type := EStateM DeviceError Disk

/-- A request that works on a disk. -/
abbrev DiskM : Type → Type := EStateM Failure Disk

instance : MonadLift DeviceM DiskM where
  monadLift act disk :=
    match act disk with
    | .ok a disk => .ok a disk
    | .error e disk => .error (.refused (.device e)) disk

namespace Disk

/-! ## Transfers -/

/-- What a read of sector `s` into a buffer of `room` bytes gives. -/
def peek (disk : Disk) (s room : Nat) : Except DeviceError Sector :=
  if disk.faults.readFails s then .error .readFault
  else if disk.count ≤ s then .error (.outOfRange s)
  else if room < sectorSize then .error .shortBuffer
  else match disk.medium.sector? s with
    | some bytes => .ok bytes
    | none => .error .endOfMedium

/-- What keeps `length` bytes from being written to sector `s`. -/
def writeError? (disk : Disk) (s length : Nat) : Option DeviceError :=
  if disk.faults.writeFails s then some .writeFault
  else if disk.count ≤ s then some (.outOfRange s)
  else if length ≠ sectorSize then some .wrongLength
  else none

/-- Reads sector `s` into the first bytes of a buffer and returns the buffer. -/
def read (s : Nat) (buffer : Array UInt8) : DeviceM (Array UInt8) := fun disk =>
  let result := disk.peek s buffer.size
  let disk := { disk with faults := disk.faults.afterRead }
  match result with
  | .ok bytes => .ok (Bytes.overlay buffer 0 bytes.toArray) disk
  | .error e => .error e disk

/-- Writes the bytes of `data` to sector `s`. -/
def write (s : Nat) (data : Array UInt8) : DeviceM Unit := fun disk =>
  match disk.writeError? s data.size with
  | none =>
    let ⟨medium, count, faults⟩ := disk
    .ok () ⟨medium.write (sectorSize * s) data, count, faults.afterWrite⟩
  | some e => .error e { disk with faults := disk.faults.afterFailedWrite }

/-- Makes sure that all writes have reached the medium. -/
def sync : DeviceM Unit := fun disk =>
  if disk.faults.sync then .error .syncFault disk else .ok () disk

/-- Reads the whole of sector `s`. -/
def readSector (s : Nat) : DiskM Sector := fun disk =>
  let result := disk.peek s sectorSize
  let disk := { disk with faults := disk.faults.afterRead }
  match result with
  | .ok bytes => .ok bytes disk
  | .error e => .error (.refused (.device e)) disk

/-- Writes the whole of sector `s`. -/
def writeSector (s : Nat) (bytes : Sector) : DiskM Unit :=
  write s bytes.toArray

/-- The number of sectors. -/
def sectorCount : DiskM Nat := fun disk => .ok disk.count disk

/-! ## Preparing a medium -/

/--
A disk of `count` sectors on a medium. A medium that is cleared loses its first `count` sectors
and keeps what lies behind them.
-/
def prepare (medium : Medium) (count : Nat) (clear : Bool) : Except DeviceError Disk :=
  if count = 0 then .error .noSectors
  else .ok { medium := if clear then medium.clear count else medium, count }

/-- A disk of `count` sectors on a medium that may be missing. Neither is checked or changed. -/
def openMedium (medium : Option Medium) (count : Nat) : Except DeviceError Disk :=
  match medium with
  | none => .error .noMedium
  | some medium => .ok { medium, count }

/-! ## Requests that work on a value beside the disk -/

/-- A disk together with the value that a request works on. -/
structure With (ρ : Type) where
  disk : Disk
  value : ρ

/-- A request that works on a disk and on a value, and keeps both when it fails. -/
abbrev WithM (ρ : Type) : Type → Type := EStateM Failure (With ρ)

instance {ρ : Type} : MonadLift DiskM (WithM ρ) where
  monadLift act := fun ⟨disk, value⟩ =>
    match act disk with
    | .ok a disk => .ok a ⟨disk, value⟩
    | .error e disk => .error e ⟨disk, value⟩

/-- Runs a request on a value and returns what has become of the value. -/
def runOn {ρ α : Type} (value : ρ) (act : WithM ρ α) : DiskM (α × ρ) := fun disk =>
  match act ⟨disk, value⟩ with
  | .ok a ⟨disk, value⟩ => .ok (a, value) disk
  | .error e ⟨disk, _⟩ => .error e disk

end Disk

end IndexedDisk
