import IndexedDisk.Volume

/-!
# File systems

A mounted volume with a table of open files. Each open file has an id, a positive number that no
other open file has. Ids are drawn at random by the caller, who hands in the draws; the first one
that is free is taken.

Removing a file closes it under all its ids, so that no id ever reaches the sectors of a file that
was made later.
-/

namespace IndexedDisk

/-- The open files and their ids. -/
structure OpenTable where
  files : List (Int32 × OpenFile) := []
deriving DecidableEq, Inhabited

namespace OpenTable

/-- The file open under an id. -/
def find? (t : OpenTable) (id : Int32) : Option OpenFile := t.files.lookup id

/-- The table with a file under an id that was not in use. -/
def insert (t : OpenTable) (id : Int32) (file : OpenFile) : OpenTable :=
  ⟨(id, file) :: t.files⟩

/-- The table with another file under an id in use. -/
def replace (t : OpenTable) (id : Int32) (file : OpenFile) : OpenTable :=
  ⟨t.files.map fun entry => if entry.1 = id then (id, file) else entry⟩

/-- The table without an id. -/
def erase (t : OpenTable) (id : Int32) : OpenTable :=
  ⟨t.files.filter (·.1 ≠ id)⟩

/-- The table without the files whose header lies at `sector`. -/
def eraseSector (t : OpenTable) (sector : Int32) : OpenTable :=
  ⟨t.files.filter (·.2.sector ≠ sector)⟩

/-- The first draw that is positive and not in use. -/
def pick? (t : OpenTable) (draws : List Int32) : Option Int32 :=
  draws.find? fun id => 0 < id && (t.find? id).isNone

end OpenTable

/-- A disk, the volume on it, and the files open in it. -/
structure FileSystem where
  disk : Disk
  volume : Volume
  opened : OpenTable := {}

/-- A request to a file system. -/
abbrev FileSystemM : Type → Type := EStateM Failure FileSystem

instance : MonadLift DiskM FileSystemM where
  monadLift act := fun ⟨disk, volume, opened⟩ =>
    match act disk with
    | .ok a disk => .ok a ⟨disk, volume, opened⟩
    | .error e disk => .error e ⟨disk, volume, opened⟩

namespace FileSystem

/-- The volume of a file system. -/
def getVolume : FileSystemM Volume := fun fs => .ok fs.volume fs

/-- The open files of a file system. -/
def getTable : FileSystemM OpenTable := fun fs => .ok fs.opened fs

/-- Changes the table of open files. -/
def amendTable (f : OpenTable → OpenTable) : FileSystemM Unit := fun ⟨disk, volume, opened⟩ =>
  .ok () ⟨disk, volume, f opened⟩

/-! ## Mounting -/

/-- Puts a new volume on a disk. A disk that does not take it is handed back. -/
def format (disk : Disk) : Except (Failure × Disk) FileSystem :=
  match Volume.format disk with
  | .ok volume disk => .ok { disk, volume }
  | .error cause disk => .error (cause, disk)

/-- Finds the volume on a disk. A disk that has none is handed back. -/
def mount (disk : Disk) : Except (Failure × Disk) FileSystem :=
  match Volume.mount disk with
  | .ok volume disk => .ok { disk, volume }
  | .error cause disk => .error (cause, disk)

/-- Gives up a file system for its disk, once all that was written has reached the medium. -/
def unmount (fs : FileSystem) : Except (Failure × Disk) Disk :=
  match Volume.unmount fs.disk with
  | .ok _ disk => .ok disk
  | .error cause disk => .error (cause, disk)

/-! ## Requests to the volume -/

/-- Makes a file of `size` bytes. -/
def create (path : String) (size : Nat) : FileSystemM Unit := do
  (← getVolume).create path size

/-- Makes an empty directory. -/
def createDirectory (path : String) : FileSystemM Unit := do
  (← getVolume).createDirectory path

/-- Opens the file at a path without giving it an id. -/
def openPath (path : String) : FileSystemM OpenFile := do
  (← getVolume).openPath path

/-- The entries of the directory at a path. -/
def list (path : String) : FileSystemM (List Entry) := do
  (← getVolume).list path

/-- All entries below the directory at a path, with their depths. -/
def listTree (path : String) : FileSystemM (List (Nat × Entry)) := do
  (← getVolume).listTree path

/-- The number of free sectors. -/
def freeSectors : FileSystemM Nat := do
  (← getVolume).freeSectors

/-- Removes a file or an empty directory, and closes it under all its ids. -/
def remove (path : String) : FileSystemM Unit := do
  let sector ← (← getVolume).remove path
  amendTable (·.eraseSector sector)

/-! ## Requests to open files -/

/-- Opens the file at a path under a new id. There is none if all draws are in use. -/
def openFile (path : String) (draws : List Int32) : FileSystemM (Option Int32) := do
  let file ← openPath path
  match (← getTable).pick? draws with
  | none => pure none
  | some id =>
    amendTable (·.insert id file)
    pure (some id)

/-- The file open under an id. -/
def handle (id : Int32) : FileSystemM (Option OpenFile) := do
  return (← getTable).find? id

/-- Reads from an open file on from its position. An id that is not in use gives no bytes. -/
def read (id : Int32) (buffer : Array UInt8) : FileSystemM (Nat × Array UInt8) := do
  match ← handle id with
  | none => pure (0, buffer)
  | some file =>
    let ((count, file), buffer) ← Disk.runOn buffer file.read
    amendTable (·.replace id file)
    pure (count, buffer)

/-- Writes to an open file on from its position. An id that is not in use takes no bytes. -/
def write (id : Int32) (data : Array UInt8) : FileSystemM Nat := do
  match ← handle id with
  | none => pure 0
  | some file =>
    let (count, file) ← file.write data
    amendTable (·.replace id file)
    pure count

/-- Gives up an id. -/
def close (id : Int32) : FileSystemM Unit := do
  match ← handle id with
  | none => refuse (.invalidHandle id)
  | some _ => amendTable (·.erase id)

end FileSystem

end IndexedDisk
