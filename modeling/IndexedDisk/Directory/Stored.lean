import IndexedDisk.Directory.Table
import IndexedDisk.Header.Print
import IndexedDisk.OpenFile

/-!
# Stored directories

A directory is kept in a file as its image from the start of the file on. A file shorter than the
image stores blank slots past its end.
-/

namespace IndexedDisk.Directory

/--
Fills all slots of a directory from a file. Nothing of the old slots is kept, not even if the file
cannot be read to its end: then what was read stands before blank bytes.
-/
def refill (file : OpenFile) : Disk.WithM Directory Unit := fun ⟨disk, d⟩ =>
  match file.readAt 0 ⟨disk, Array.replicate (fileSize d.size) 0⟩ with
  | .ok _ ⟨disk, bytes⟩ => .ok () ⟨disk, ofImage d.size bytes⟩
  | .error cause ⟨disk, bytes⟩ => .error cause ⟨disk, ofImage d.size bytes⟩

/-- Reads the directory of `size` slots from a file. -/
def fetch (file : OpenFile) (size : Nat) : DiskM Directory := do
  let (_, d) ← Disk.runOn (empty size) (refill file)
  return d

/-- Writes a directory to a file. -/
def store (d : Directory) (file : OpenFile) : DiskM Unit := do
  let _ ← file.writeAt 0 d.image

/-- Prints entries, each with its header and what it holds. -/
def printEntries : List Entry → Disk.WithM Sink Unit
  | [] => pure ()
  | e :: rest => do
    Sink.emit s!"Name: {e.name}, Sector: {e.sector}, Kind: {e.kind.letter}\n"
    let header ← Header.fetch e.sector
    header.print
    printEntries rest

/-- Prints a directory, each entry with its header and what it holds. -/
def print (d : Directory) : Disk.WithM Sink Unit := do
  Sink.emit "Directory contents:\n"
  printEntries d.list
  Sink.emit "\n"

end IndexedDisk.Directory
