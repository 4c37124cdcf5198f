import IndexedDisk.Header.Basic
import IndexedDisk.SectorMap.Basic

/-!
# Allocation

How a file comes by its sectors. They are drawn from a sector map, the lowest free one first: the
direct data sectors, then the single block and its data sectors, then the double block and, one
after the other, each child block and its data sectors. A block is written as soon as its data
sectors are drawn, and the double block last of all.

Space is counted before anything is drawn. If a block cannot be written, every sector drawn is
given back and the header is the empty one again.
-/

namespace IndexedDisk

/-- A sector map and the sectors drawn from it, the latest first. -/
structure Supply where
  map : SectorMap
  drawn : List Nat

/-- A request that draws sectors. -/
abbrev SupplyM : Type → Type := Disk.WithM Supply

namespace Supply

/-- Draws the lowest free sector. -/
def draw : SupplyM Int32 := fun ⟨disk, map, drawn⟩ =>
  match map.take with
  | some (sector, map) => .ok (Word.ofNat sector) ⟨disk, map, sector :: drawn⟩
  | none => .error (.refused .noSpace) ⟨disk, map, drawn⟩

/-- Draws `n` sectors. -/
def drawMany : Nat → SupplyM (List Int32)
  | 0 => pure []
  | n + 1 => do
    let sector ← draw
    let rest ← drawMany n
    return sector :: rest

/-- Draws `n` data sectors and writes the block that names them to `p`. -/
def fillBlock (p : Int32) (n : Nat) : SupplyM Unit := do
  let sectors ← drawMany n
  (IndexBlock.ofList sectors).store p

/--
Draws child blocks and their data sectors until `rest` data sectors are drawn, and returns the
blocks. The double block names `named` blocks already.
-/
def fillChildren (size rest named : Nat) : SupplyM (List Int32) :=
  if rest = 0 then pure []
  else if named = blockPointers then refuse (.fileTooLarge size)
  else do
    let child ← draw
    fillBlock child (min rest blockPointers)
    let children ← fillChildren size (rest - min rest blockPointers) (named + 1)
    return child :: children
termination_by rest
decreasing_by simp only [blockPointers]; omega

/-- Draws the single tier for `n` data sectors. -/
def fillSingle (n : Nat) : SupplyM Int32 := do
  let block ← draw
  fillBlock block n
  return block

/-- Draws the double tier for `n` data sectors. -/
def fillDouble (size n : Nat) : SupplyM Int32 := do
  let block ← draw
  let children ← fillChildren size n 0
  (IndexBlock.ofList children).store block
  return block

/-- Draws all sectors of a file of `size` bytes and returns its header. -/
def fill (size : Nat) : SupplyM Header := do
  let sectors := sectorsFor size
  let indirect := sectors - directPointers
  let direct ← drawMany (min sectors directPointers)
  let single ← if indirect = 0 then pure noSector else fillSingle (min indirect blockPointers)
  let double ←
    if indirect < blockPointers then pure noSector else fillDouble size (indirect - blockPointers)
  return {
    byteCount := Word.ofNat size
    sectorCount := Word.ofNat sectors
    direct := Vector.ofFn fun i => direct.getD i.val noSector
    single
    double }

end Supply

namespace Header

/-- A sector map and a header whose sectors come from it. -/
structure Holding where
  map : SectorMap
  header : Header

/-- A request that takes sectors for a header or gives them back. -/
abbrev HoldingM : Type → Type := Disk.WithM Holding

/-- Makes the header one for a file of `size` bytes, with sectors of its own. -/
def allocate (size : Nat) : HoldingM Unit := fun ⟨disk, map, header⟩ =>
  if maxFileSize < size then .error (.refused (.fileTooLarge size)) ⟨disk, map, header⟩
  else match map.freeCount with
    | .error cause => .error (.broken cause) ⟨disk, map, header⟩
    | .ok free =>
      if free < sectorsFor size + indexBlocksFor (sectorsFor size) then
        .error (.refused .noSpace) ⟨disk, map, header⟩
      else match Supply.fill size ⟨disk, map, []⟩ with
        | .ok header ⟨disk, map, _⟩ => .ok () ⟨disk, map, header⟩
        | .error cause ⟨disk, map, drawn⟩ =>
          match map.releaseAll drawn with
          | .ok map => .error cause ⟨disk, map, empty⟩
          | .error cause => .error (.broken cause) ⟨disk, map, empty⟩

end Header

end IndexedDisk
