import IndexedDisk.Directory.Resolve
import IndexedDisk.Header.Release
import IndexedDisk.SectorMap.Stored

/-!
# Volumes

A tree of directories and files on a disk. The sector map and the root directory are files like
any other, with their headers in sectors 0 and 1.

A request that changes the volume works on copies of the map and of the directory, and writes them
back when all else is done.
-/

namespace IndexedDisk

/-- The two files that a volume is found from. -/
structure Volume where
  mapFile : OpenFile
  rootFile : OpenFile
deriving DecidableEq, Inhabited

namespace Volume

/-! ## Making and finding a volume -/

/-- A new header with sectors from a map, for a file of `size` bytes. -/
def newHeader (map : SectorMap) (size : Nat) : DiskM (SectorMap × Header) := do
  let (_, held) ← Disk.runOn ⟨map, .empty⟩ (Header.allocate size)
  return (held.map, held.header)

/-- Opens the files of the map and of the root directory. -/
def openFiles : DiskM Volume := do
  let mapFile ← OpenFile.openAt mapSector
  let rootFile ← OpenFile.openAt rootSector
  return { mapFile, rootFile }

/-- The map of `count` free sectors. It is made only if a file can hold its image. -/
def freshMap (count : Nat) : DiskM SectorMap :=
  if SectorMap.maxSize < count then breach .arithmetic
  else if maxFileSize < SectorMap.imageSize count then
    refuse (.fileTooLarge (SectorMap.imageSize count))
  else pure (SectorMap.empty count)

/-- Makes an empty volume. The two headers are written before their files are opened. -/
def format : DiskM Volume := do
  let count ← Disk.sectorCount
  if count ≤ Word.wide rootSector then refuse .noSpace
  else do
    let map ← freshMap count
    let map ← map.mark (Word.wide mapSector)
    let map ← map.mark (Word.wide rootSector)
    let (map, mapHeader) ← newHeader map (SectorMap.imageSize count)
    let (map, rootHeader) ← newHeader map directoryFileSize
    mapHeader.store mapSector
    rootHeader.store rootSector
    let volume ← openFiles
    map.store volume.mapFile
    (Directory.empty directorySlots).store volume.rootFile
    Disk.sync
    return volume

/-- Finds the volume that was made on a disk of this size. -/
def mount : DiskM Volume := do
  let volume ← openFiles
  let count ← Disk.sectorCount
  if volume.mapFile.length = SectorMap.imageSize count
      ∧ volume.rootFile.length = directoryFileSize then pure volume
  else refuse .unformatted

/-- Makes sure that all that was written has reached the medium. -/
def unmount : DiskM Unit := Disk.sync

/-! ## Finding entries -/

/-- The sector map as it is stored. -/
def fetchMap (v : Volume) : DiskM SectorMap := do
  let count ← Disk.sectorCount
  SectorMap.fetch v.mapFile count

/-- Follows names down from the root directory. -/
def resolve (v : Volume) (components : List String) : DiskM (OpenFile × Directory) :=
  Directory.resolve v.rootFile components

/-- Opens the file or the directory at a path. -/
def openPath (v : Volume) (path : String) : DiskM OpenFile := do
  let (parents, name) ← Path.splitLast path
  let (_, d) ← v.resolve parents
  match d.find? name with
  | none => refuse (.notFound path)
  | some e => OpenFile.openAt e.sector

/-- The entries of the directory at a path, in the order of their slots. -/
def list (v : Volume) (path : String) : DiskM (List Entry) := do
  let components ← Path.split path
  let (_, d) ← v.resolve components
  return d.list

/--
All entries below the directory at a path, with their depths. A chain of directories that is
longer than the disk has sectors comes back to one of them.
-/
def listTree (v : Volume) (path : String) : DiskM (List (Nat × Entry)) := do
  let components ← Path.split path
  let (_, d) ← v.resolve components
  let count ← Disk.sectorCount
  Directory.subtree (count + 1) 0 d.list

/-- The number of free sectors. -/
def freeSectors (v : Volume) : DiskM Nat := do
  let map ← v.fetchMap
  map.freeCount

/-! ## Changing entries -/

/-- Draws the sector of a new header. -/
def drawHeader (map : SectorMap) : DiskM (Nat × SectorMap) :=
  match map.take with
  | some drawn => pure drawn
  | none => refuse .noSpace

/-- Makes the directory of a new header blank. -/
def storeBlank (sector : Int32) : DiskM Unit := do
  let content ← OpenFile.openAt sector
  (Directory.empty directorySlots).store content

/-- Makes an entry for a new file of `size` bytes, and returns the sector of its header. -/
def createEntry (v : Volume) (path : String) (size : Nat) (kind : EntryKind) : DiskM Int32 := do
  let (parents, name) ← Path.splitLast path
  let (file, d) ← v.resolve parents
  if (d.find? name).isSome then refuse (.alreadyExists path)
  else do
    let map ← v.fetchMap
    let (drawn, map) ← drawHeader map
    let sector := Word.ofNat drawn
    let d ← d.add name sector kind
    let (map, header) ← newHeader map size
    header.store sector
    if kind = .directory then storeBlank sector else pure ()
    d.store file
    map.store v.mapFile
    return sector

/-- Makes a file of `size` bytes. -/
def create (v : Volume) (path : String) (size : Nat) : DiskM Unit := do
  let _ ← v.createEntry path size .file

/-- Makes an empty directory. Its path must start at the root. -/
def createDirectory (v : Volume) (path : String) : DiskM Unit :=
  if path.toList.head? = some '/' then do
    let _ ← v.createEntry path directoryFileSize .directory
  else refuse (.invalidPath (.notAbsolute path))

/-- The directory whose header lies at `p` has no entries. -/
def isEmptyAt (p : Int32) : DiskM Bool := do
  let (_, d) ← Directory.openAt p
  return d.isEmpty

/-- Gives back the sectors of a header and the sector that the header lies in. -/
def freeFile (map : SectorMap) (header : Header) (sector : Int32) : DiskM SectorMap := do
  let (_, held) ← Disk.runOn ⟨map, header⟩ Header.deallocate
  held.map.release (Word.wide sector)

/--
Removes a file, or a directory without entries, and returns the sector that its header lay in.
-/
def remove (v : Volume) (path : String) : DiskM Int32 := do
  let (parents, name) ← Path.splitLast path
  let (file, d) ← v.resolve parents
  match d.find? name with
  | none => refuse (.notFound path)
  | some e =>
    let header ← Header.fetch e.sector
    let removable ← if e.isDirectory then isEmptyAt e.sector else pure true
    if removable then do
      let map ← v.fetchMap
      let map ← freeFile map header e.sector
      let d ← d.remove name
      map.store v.mapFile
      d.store file
      return e.sector
    else refuse (.directoryNotEmpty path)

/-! ## Printing -/

/-- Prints the header at `p` and what its file holds. -/
def printHeader (p : Int32) : Disk.WithM Sink Unit := do
  let header ← Header.fetch p
  header.print

/-- Adds the print of a sector map. -/
def printMap (map : SectorMap) : Disk.WithM Sink Unit :=
  Sink.emit map.text

/-- Prints the two headers, the sector map, and the root directory with what its entries hold. -/
def print (v : Volume) : Disk.WithM Sink Unit := do
  Sink.emit "Bit map file header:\n"
  printHeader mapSector
  Sink.emit "Directory file header:\n"
  printHeader rootSector
  let map ← v.fetchMap
  printMap map
  let (_, root) ← v.resolve []
  root.print

end Volume

end IndexedDisk
