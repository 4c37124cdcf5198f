import IndexedDisk.SectorMap.Basic

/-!
# Sector maps in words

The bits of a sector map, packed into words of 64 bits, the least significant bit first. The last
word is used in part. On words a bit is found by a mask, the lowest free sector by the first word
that is not full and the ones at its end, and the number of sectors in use by counting ones; the
image is the bytes of the words, the least significant first, as far as they are needed.
-/

namespace IndexedDisk

/-- A map of `size` sectors as words. -/
structure WordMap where
  size : Nat
  words : List (BitVec 64)
deriving DecidableEq, Repr

namespace WordMap

/-- Words that hold the bits of `size` sectors. -/
def wordCount (size : Nat) : Nat := (size + 63) / 64

/-- The map in which each of `size` sectors is free, if the words can be counted. They are counted
from the bits of one word more, so that this sum must not be too large. -/
def new (size : Nat) : Except Breach WordMap :=
  if size + 64 < 0x10000000000000000 then .ok ⟨size, List.replicate (wordCount size) 0⟩
  else .error .arithmetic

/-- Word `k` of the map, zero past its end. -/
def word (w : WordMap) (k : Nat) : BitVec 64 := w.words.getD k 0

/-- The word with the bit of sector `i` alone. -/
def mask (i : Nat) : BitVec 64 := BitVec.twoPow 64 (i % 64)

/-- The map with the word of sector `i` changed. -/
def amend (w : WordMap) (i : Nat) (f : BitVec 64 → BitVec 64) : WordMap :=
  { w with words := w.words.modify (i / 64) f }

/-- The bit of sector `i` is set. -/
def bit (w : WordMap) (i : Nat) : Bool := w.word (i / 64) &&& mask i != 0

/-- Sector `i` is in use. -/
def isMarked (w : WordMap) (i : Nat) : Except Breach Bool :=
  if i < w.size then .ok (w.bit i) else .error (.outsideMap i)

/-- Puts sector `i` in use, whether or not it was. -/
def mark (w : WordMap) (i : Nat) : Except Breach WordMap :=
  if i < w.size then .ok (w.amend i (· ||| mask i)) else .error (.outsideMap i)

/-- Gives back sector `i`, which must be in use. -/
def release (w : WordMap) (i : Nat) : Except Breach WordMap := do
  if ← w.isMarked i then .ok (w.amend i (· &&& ~~~ mask i)) else .error (.notInUse i)

/-- The ones at the end of a word. -/
def trailingOnes (x : BitVec 64) : Nat := (~~~ x).ctz.toNat

/-- The lowest clear bit of words, in the first that is not full. -/
def lowestClear : List (BitVec 64) → Option Nat
  | [] => none
  | x :: rest =>
    if x = BitVec.allOnes 64 then (lowestClear rest).map (64 + ·) else some (trailingOnes x)

/-- Puts the lowest free sector in use. -/
def take (w : WordMap) : Option (Nat × WordMap) :=
  match lowestClear w.words with
  | some i => if i < w.size then some (i, w.amend i (· ||| mask i)) else none
  | none => none

/-- The number of bits that are set. -/
def setCount (w : WordMap) : Nat := w.words.foldr (fun x n => x.cpop.toNat + n) 0

/-- The number of free sectors. -/
def freeCount (w : WordMap) : Except Breach Nat :=
  if w.setCount ≤ w.size then .ok (w.size - w.setCount) else .error .arithmetic

/-- The sectors in use, in increasing order. -/
def marked (w : WordMap) : List Nat := (List.range w.size).filter w.bit

/-! ## The image of a map -/

/-- The bytes of a word, the least significant first. -/
def bytesOf (x : BitVec 64) : List UInt8 :=
  (List.range 8).map fun k => .ofBitVec ((x >>> (8 * k)).setWidth 8)

/-- The word of up to eight bytes, the least significant first. Bytes that are not there count as
zero. -/
def ofBytes : List UInt8 → BitVec 64
  | [] => 0
  | b :: rest => b.toBitVec.setWidth 64 ||| ofBytes rest <<< 8

/-- The bytes that store a map. -/
def image (w : WordMap) : List UInt8 :=
  (w.words.flatMap bytesOf).take (SectorMap.imageSize w.size)

/-- The map of `size` sectors that bytes store, eight of them to a word. -/
def ofImage (size : Nat) (bytes : List UInt8) : WordMap :=
  ⟨size, (List.range (wordCount size)).map fun k => ofBytes ((bytes.drop (8 * k)).take 8)⟩

end WordMap

end IndexedDisk
