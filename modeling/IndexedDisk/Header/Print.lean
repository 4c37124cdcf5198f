import IndexedDisk.Header.Basic
import IndexedDisk.Sink

/-!
# Printed headers

A header is printed as its data sectors followed by what the file holds, a line for each sector.
The last line ends where the file does.
-/

namespace IndexedDisk.Header

/-- Prints the bytes of data sectors, `left` bytes in all. -/
def printContents : List Int32 → Nat → Disk.WithM Sink Unit
  | [], _ => pure ()
  | sector :: rest, left => do
    let bytes ← Disk.readSector (Word.wide sector)
    Sink.emit (String.join ((bytes.toList.take left).map Escape.byte) ++ "\n")
    printContents rest (left - sectorSize)

/-- Prints a header and the contents of its file. -/
def print (h : Header) : Disk.WithM Sink Unit := do
  let sectors ← h.dataSectors
  Sink.emit s!"FileHeader contents.  File size: {h.byteCount}.  File blocks:\n"
  Sink.emit (String.join (sectors.map fun sector => s!"{sector} "))
  Sink.emit "\nFile contents:\n"
  printContents sectors h.length

end IndexedDisk.Header
