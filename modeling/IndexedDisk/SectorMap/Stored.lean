import IndexedDisk.OpenFile
import IndexedDisk.SectorMap.Basic
import IndexedDisk.Sink

/-!
# Stored sector maps

A sector map is kept in a file of its own, as its image from the start of the file on.
-/

namespace IndexedDisk.SectorMap

/-- Reads the map of `size` sectors from a file. -/
def fetch (file : OpenFile) (size : Nat) : DiskM SectorMap := do
  let (_, bytes) ← Disk.runOn (Array.replicate (imageSize size) 0) (file.readAt 0)
  return ofImage size bytes

/-- Writes a map to a file. -/
def store (m : SectorMap) (file : OpenFile) : DiskM Unit := do
  let _ ← file.writeAt 0 m.image

/-- Prints a map. -/
def print (m : SectorMap) : EStateM DeviceError Sink Unit :=
  Sink.put m.text

end IndexedDisk.SectorMap
