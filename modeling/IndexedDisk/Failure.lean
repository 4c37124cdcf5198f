import IndexedDisk.Text.Escape

/-!
# Failures

A request fails in one of two ways. It is *refused*, for a reason that the caller is told, or it
runs into a *breach*: the structures on the disk contradict each other, or a number is out of all
bounds, and it stops without an answer. A `DeviceError` is what the disk itself reports; most
requests pass it on as a refusal.
-/

namespace IndexedDisk

/-- What the disk under a volume, or the sink of a print, reports. -/
inductive DeviceError where
  /-- A read that was planned to fail. -/
  | readFault
  /-- A write that was planned to fail. -/
  | writeFault
  /-- A sync that was planned to fail. -/
  | syncFault
  /-- The disk has no such sector. -/
  | outOfRange (sector : Nat)
  /-- The buffer of a read is shorter than a sector. -/
  | shortBuffer
  /-- The bytes of a write are not one sector. -/
  | wrongLength
  /-- A disk of no sectors was asked for. -/
  | noSectors
  /-- The medium ends before the sector does. -/
  | endOfMedium
  /-- There is no medium. -/
  | noMedium
  /-- The sink takes no more bytes. -/
  | sinkFull
deriving DecidableEq, Repr, Inhabited

namespace DeviceError

/-- The text of a device error. -/
def message : DeviceError → String
  | readFault => "injected read fault"
  | writeFault => "injected write fault"
  | syncFault => "injected sync fault"
  | outOfRange sector => s!"sector {sector} out of range"
  | shortBuffer => "buffer does not contain enough space to read sector"
  | wrongLength => "buffer length must equal the sector size"
  | noSectors => "device needs at least one sector"
  | endOfMedium => "the medium ends before the sector"
  | noMedium => "there is no medium"
  | sinkFull => "the sink takes no more bytes"

end DeviceError

/-- What is wrong with a path or a name. -/
inductive PathError where
  /-- A component is a single or a double dot. -/
  | relative (component path : String)
  /-- The path has no component. -/
  | noName (path : String)
  /-- The path does not start at the root. -/
  | notAbsolute (path : String)
  /-- The name is empty or holds a NUL. -/
  | badName (name : String)
deriving DecidableEq, Repr

namespace PathError

/-- The text of a path error. -/
def message : PathError → String
  | relative component path => s!"relative component \"{component}\" in {path}"
  | noName path => s!"{path} names no entry"
  | notAbsolute path => s!"{path} must start with \"/\""
  | badName name => Escape.ascii name

end PathError

/-- Why a request is refused. -/
inductive Refusal where
  | noSpace
  | directoryFull
  | fileTooLarge (size : Nat)
  | notFound (path : String)
  | alreadyExists (path : String)
  | notADirectory (path : String)
  | directoryNotEmpty (path : String)
  | invalidPath (cause : PathError)
  | nameTooLong (name : String)
  | outOfRange (offset length : Nat)
  | invalidHandle (id : Int32)
  | unformatted
  | device (cause : DeviceError)
deriving DecidableEq, Repr

namespace Refusal

/-- The text of a refusal. -/
def message : Refusal → String
  | noSpace => "not enough free sectors"
  | directoryFull => "directory has no free entry"
  | fileTooLarge size => s!"file of {size} bytes exceeds the largest indexable size"
  | notFound path => s!"found no file at path {path}"
  | alreadyExists path => s!"{path} already exists"
  | notADirectory path => s!"{path} is not a directory"
  | directoryNotEmpty path => s!"directory {path} is not empty"
  | invalidPath cause => s!"invalid path: {cause.message}"
  | nameTooLong name => s!"name {name} is too long"
  | outOfRange offset length => s!"offset {offset} is beyond the end of a {length} byte file"
  | invalidHandle id => s!"no open file with id {id}"
  | unformatted => "disk does not hold a formatted file system"
  | device _ => "invalid file system block layout"

end Refusal

/-- What stops a request without an answer. -/
inductive Breach where
  /-- A sector beyond the end of the sector map. -/
  | outsideMap (sector : Nat)
  /-- A sector that is given back without being in use. -/
  | notInUse (sector : Nat)
  /-- An index block that names more sectors than it holds, or is asked for one it cannot hold. -/
  | blockRange
  /-- A number that does not fit in 64 bits. -/
  | arithmetic
  /-- A table or a buffer of more bytes than can be held. -/
  | overlong
  /-- Directories that contain each other, so that a listing has no end. -/
  | endless
deriving DecidableEq, Repr

namespace Breach

/-- The text of a breach, where it has one. -/
def message : Breach → Option String
  | outsideMap sector => some s!"sector {sector} outside bitmap"
  | notInUse sector => some s!"freed sector {sector} was not marked in use"
  | blockRange | arithmetic | overlong | endless => none

end Breach

/-- How a request fails. -/
inductive Failure where
  | refused (cause : Refusal)
  | broken (cause : Breach)
deriving DecidableEq, Repr

/-- Refuses a request. -/
def refuse {σ α : Type} (cause : Refusal) : EStateM Failure σ α :=
  throw (.refused cause)

/-- Stops a request at a breach. -/
def breach {σ α : Type} (cause : Breach) : EStateM Failure σ α :=
  throw (.broken cause)

instance {σ : Type} : MonadLift (Except Refusal) (EStateM Failure σ) where
  monadLift
    | .ok a => pure a
    | .error cause => refuse cause

instance {σ : Type} : MonadLift (Except Breach) (EStateM Failure σ) where
  monadLift
    | .ok a => pure a
    | .error cause => breach cause

end IndexedDisk
