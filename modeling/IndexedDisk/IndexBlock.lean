import IndexedDisk.Disk

/-!
# Index blocks

A sector that names other sectors: a count, and 31 pointers of which the first `count` are in use.
The single tier of a file is one such block that names data sectors; the double tier is a block
that names blocks that name data sectors. A block and its sector determine each other
(`ofSector_toSector`, `toSector_ofSector`).
-/

namespace IndexedDisk

/-- The contents of an index block. -/
structure IndexBlock where
  count : Int32
  pointers : Vector Int32 31
deriving DecidableEq

namespace IndexBlock

/-- The block that a sector holds. Every sector holds one. -/
def ofSector (s : Sector) : IndexBlock :=
  { count := s.word 0, pointers := Vector.ofFn fun i => s.word (i.val + 1) }

/-- The sector that holds a block. -/
def toSector (b : IndexBlock) : Sector :=
  Sector.ofWords (Vector.ofFn fun i =>
    if h : i.val = 0 then b.count else b.pointers[i.val - 1])

/-- The block that names the given sectors. -/
def ofList (sectors : List Int32) : IndexBlock :=
  { count := Word.ofNat sectors.length, pointers := Vector.ofFn fun i => sectors.getD i.val 0 }

/-- The sectors that a block names. -/
def entries (b : IndexBlock) : Except Breach (List Int32) :=
  if Word.wide b.count ≤ blockPointers then .ok (b.pointers.toList.take (Word.wide b.count))
  else .error .blockRange

/-- Pointer `i` of a block, whether or not it is in use. -/
def pointer (b : IndexBlock) (i : Nat) : Except Breach Int32 :=
  match b.pointers[i]? with
  | some p => .ok p
  | none => .error .blockRange

/-- Reads the block at `p`. -/
def fetch (p : Int32) : DiskM IndexBlock := do
  return ofSector (← Disk.readSector (Word.wide p))

/-- Writes a block to `p`. -/
def store (b : IndexBlock) (p : Int32) : DiskM Unit :=
  Disk.writeSector (Word.wide p) b.toSector

/-- The sectors that the block at `p` names. -/
def entriesAt (p : Int32) : DiskM (List Int32) := do
  let b ← fetch p
  b.entries

/-! ## Blocks and sectors -/

@[simp] theorem ofSector_toSector (b : IndexBlock) : ofSector b.toSector = b := by
  obtain ⟨count, pointers⟩ := b
  simp only [ofSector, toSector, mk.injEq]
  refine ⟨by simp, Vector.ext fun i hi => ?_⟩
  rw [Vector.getElem_ofFn, Sector.word_ofWords _ (by omega), Vector.getElem_ofFn]
  simp

@[simp] theorem toSector_ofSector (s : Sector) : (ofSector s).toSector = s := by
  conv => rhs; rw [← Sector.ofWords_words s]
  rw [toSector, ofSector]
  refine congrArg Sector.ofWords (Vector.ext fun i hi => ?_)
  by_cases h : i = 0
  · simp [h]
  · have hi : i - 1 + 1 = i := by omega
    simp [h, hi]

end IndexBlock

end IndexedDisk
