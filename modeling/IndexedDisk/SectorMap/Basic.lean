import IndexedDisk.Failure

/-!
# The sector map

Which sectors of a disk are in use, one bit for each. The bits fill whole bytes, so that up to
seven of them stand for no sector; they are kept as they were stored.

* `mark` and `release` put a sector in use and give it back. Giving back a sector that is not in
  use is a breach: the map disagrees with what names the sector.
* `take` puts the lowest free sector in use.
-/

namespace IndexedDisk

/-- Bytes that hold the bits of `size` sectors. -/
def SectorMap.imageSize (size : Nat) : Nat := (size + 7) / 8

/-- The sectors in use among the first `size`. -/
structure SectorMap where
  size : Nat
  bits : Array Bool
  size_bits : bits.size = 8 * SectorMap.imageSize size
deriving DecidableEq

namespace SectorMap

/-- The map in which every sector is free. -/
def empty (size : Nat) : SectorMap :=
  ⟨size, Array.replicate (8 * imageSize size) false, by simp⟩

/-- Sectors in the largest map. A larger number and the bits of one word make over 64 bits. -/
abbrev maxSize : Nat := 0x10000000000000000 - 65

/-- The map in which each of `size` sectors is free, if a map can have that many. -/
def new (size : Nat) : Except Breach SectorMap :=
  if size ≤ maxSize then .ok (empty size) else .error .arithmetic

instance : Inhabited SectorMap := ⟨empty 0⟩

/-- Bit `i` of the map, false past its bits. -/
def bit (m : SectorMap) (i : Nat) : Bool := m.bits.getD i false

/-- The map with bit `i` changed. -/
def setBit : SectorMap → Nat → Bool → SectorMap
  | ⟨size, bits, h⟩, i, b => ⟨size, bits.setIfInBounds i b, by simp [h]⟩

/-- Sector `i` is in use. -/
def isMarked (m : SectorMap) (i : Nat) : Except Breach Bool :=
  if i < m.size then .ok (m.bit i) else .error (.outsideMap i)

/-- Puts sector `i` in use, whether or not it was. -/
def mark (m : SectorMap) (i : Nat) : Except Breach SectorMap :=
  if i < m.size then .ok (m.setBit i true) else .error (.outsideMap i)

/-- Gives back sector `i`, which must be in use. -/
def release (m : SectorMap) (i : Nat) : Except Breach SectorMap :=
  if i < m.size then
    if m.bit i then .ok (m.setBit i false) else .error (.notInUse i)
  else .error (.outsideMap i)

/-- Gives back sectors, one after the other. -/
def releaseAll (m : SectorMap) (sectors : List Nat) : Except Breach SectorMap :=
  sectors.foldlM release m

/-- Puts the lowest free sector in use. -/
def take (m : SectorMap) : Option (Nat × SectorMap) :=
  match m.bits.findIdx? (! ·) with
  | some i => if i < m.size then some (i, m.setBit i true) else none
  | none => none

/-- The number of bits that are set, those past the last sector included. -/
def setCount (m : SectorMap) : Nat := m.bits.count true

/-- The number of free sectors. Set bits past the last sector count as sectors in use. -/
def freeCount (m : SectorMap) : Except Breach Nat :=
  if m.setCount ≤ m.size then .ok (m.size - m.setCount) else .error .arithmetic

/-- The sectors in use, in increasing order. -/
def marked (m : SectorMap) : List Nat :=
  (List.range m.size).filter m.bit

/-! ## The image of a map -/

/-- The number below 256 with the given bits, the least significant first. -/
def natOfBits (b : Nat → Bool) : Nat :=
  (b 0).toNat + 2 * ((b 1).toNat + 2 * ((b 2).toNat + 2 * ((b 3).toNat + 2 *
    ((b 4).toNat + 2 * ((b 5).toNat + 2 * ((b 6).toNat + 2 * (b 7).toNat))))))

/-- The byte with the given bits, the least significant first. -/
def byteOfBits (b : Nat → Bool) : UInt8 := UInt8.ofNat (natOfBits b)

/-- The bytes that store a map: sector `i` is bit `i % 8` of byte `i / 8`. -/
def image (m : SectorMap) : Array UInt8 :=
  Array.ofFn fun j : Fin (imageSize m.size) => byteOfBits fun k => m.bit (8 * j.val + k)

/-- The map of `size` sectors that bytes store. Bytes that are not there count as zero. -/
def ofImage (size : Nat) (bytes : Array UInt8) : SectorMap :=
  ⟨size, Array.ofFn fun i : Fin (8 * imageSize size) =>
    (bytes.getD (i.val / 8) 0).toNat.testBit (i.val % 8), by simp⟩

/-- The printed form of a map. -/
def text (m : SectorMap) : String :=
  "Bitmap set:\n" ++ String.join (m.marked.map fun i => s!"{i}, ") ++ "\n"

end SectorMap

end IndexedDisk
