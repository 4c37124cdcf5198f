import IndexedDisk.Header.Allocation

/-!
# Release

How a file gives its sectors back: the direct data sectors, then the single tier, then the double
tier. The blocks of a tier are read from the disk; a tier whose blocks cannot be read keeps what
was not given back, and the header keeps its pointer.
-/

namespace IndexedDisk.Header

/-- Gives back the sector that a pointer names. -/
def giveBack (p : Int32) : HoldingM Unit := fun ⟨disk, map, header⟩ =>
  match map.release (Word.wide p) with
  | .ok map => .ok () ⟨disk, map, header⟩
  | .error cause => .error (.broken cause) ⟨disk, map, header⟩

/-- Gives back the sectors that pointers name, in order. -/
def giveBackAll : List Int32 → HoldingM Unit
  | [] => pure ()
  | p :: ps => do
    giveBack p
    giveBackAll ps

/-- Gives back the sectors that the block at `p` names, and then the block. -/
def giveBackBlock (p : Int32) : HoldingM Unit := do
  let sectors ← IndexBlock.entriesAt p
  giveBackAll sectors
  giveBack p

/-- Gives back blocks and the sectors that they name. -/
def giveBackBlocks : List Int32 → HoldingM Unit
  | [] => pure ()
  | p :: ps => do
    giveBackBlock p
    giveBackBlocks ps

/-- The header as it stands. -/
def current : HoldingM Header := fun held => .ok held.value.header held

/-- Changes the header. -/
def amend (f : Header → Header) : HoldingM Unit := fun ⟨disk, map, header⟩ =>
  .ok () ⟨disk, map, f header⟩

/-- Gives back the single tier. -/
def releaseSingle : HoldingM Unit := do
  match (← current).single? with
  | none => pure ()
  | some block =>
    giveBackBlock block
    amend ({ · with single := noSector })

/-- Gives back the double tier. -/
def releaseDouble : HoldingM Unit := do
  match (← current).double? with
  | none => pure ()
  | some block =>
    let children ← IndexBlock.entriesAt block
    giveBackBlocks children
    giveBack block
    amend ({ · with double := noSector })

/-- Gives back every sector of the header. -/
def deallocate : HoldingM Unit := do
  giveBackAll (← current).directSectors
  releaseSingle
  releaseDouble

end IndexedDisk.Header
