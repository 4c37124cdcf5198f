import IndexedDisk.Directory.Entry
import IndexedDisk.Room

/-!
# Directory tables

A directory is a row of slots whose number never changes. A new entry goes into the first slot
that is not in use, and an entry that is removed leaves the other slots where they are. A directory
and its image determine each other (`ofImage_image`, `image_ofImage`), whatever the slots hold.
-/

namespace IndexedDisk

/-- The slots of a directory. -/
structure Directory where
  slots : Array Entry
deriving DecidableEq, Inhabited

namespace Directory

/-- A directory of `size` blank slots. -/
def empty (size : Nat) : Directory := ⟨Array.replicate size .blank⟩

/-- A directory of `size` blank slots, if that many can be held. -/
def new (size : Nat) : Except Breach Directory := do
  let slots ← Room.fill entrySize size .blank
  return ⟨slots⟩

/-- The number of slots. -/
def size (d : Directory) : Nat := d.slots.size

/-- Bytes that store `size` slots. -/
def fileSize (size : Nat) : Nat := size * entrySize

theorem new_eq_ok_iff {size : Nat} {d : Directory} :
    new size = .ok d ↔ fileSize size ≤ maxRoom ∧ d = empty size := by
  unfold new Room.fill
  split
  · next h => exact ⟨fun | rfl => ⟨h, rfl⟩, fun ⟨_, hd⟩ => hd ▸ rfl⟩
  · next h => exact ⟨nofun, fun ⟨h', _⟩ => absurd h' h⟩

/-- The slot is in use under the given name. -/
def holds (name : String) (e : Entry) : Bool := e.inUse && e.name == name

/-- The slot in use under a name. -/
def findIdx? (d : Directory) (name : String) : Option Nat :=
  d.slots.findIdx? (holds name)

/-- The entry of a name. -/
def find? (d : Directory) (name : String) : Option Entry :=
  d.slots.find? (holds name)

/-- A name that can be stored ends at its first NUL and is not empty. -/
def isBadName (name : String) : Bool :=
  name.isEmpty || name.toList.any (·.toNat = 0)

/-- Puts a name into the first slot that is not in use. -/
def add (d : Directory) (name : String) (sector : Int32) (kind : EntryKind) :
    Except Refusal Directory :=
  if maxNameLength < name.utf8ByteSize then .error (.nameTooLong name)
  else if isBadName name then .error (.invalidPath (.badName name))
  else if (d.findIdx? name).isSome then .error (.alreadyExists name)
  else match d.slots.findIdx? (! ·.inUse) with
    | none => .error .directoryFull
    | some i => .ok ⟨d.slots.setIfInBounds i (.named name sector kind)⟩

/-- Gives up the slot of a name. -/
def remove (d : Directory) (name : String) : Except Refusal Directory :=
  match d.findIdx? name with
  | none => .error (.notFound name)
  | some i => .ok ⟨d.slots.modify i .retired⟩

/-- The entries in use, in the order of their slots. -/
def list (d : Directory) : List Entry := d.slots.toList.filter (·.inUse)

/-- No slot is in use. -/
def isEmpty (d : Directory) : Bool := d.slots.all (! ·.inUse)

/-! ## The image of a directory -/

/-- The bytes that store a directory. -/
def image (d : Directory) : Array UInt8 :=
  let rows := d.slots.map (·.bytes)
  Array.ofFn fun i : Fin (fileSize d.size) =>
    have h : i.val % entrySize < 32 := Nat.mod_lt _ (by decide)
    (rows.getD (i.val / entrySize) Entry.blank.bytes)[i.val % entrySize]

/-- The directory of `size` slots that bytes store. Bytes that are not there count as zero. -/
def ofImage (size : Nat) (bytes : Array UInt8) : Directory :=
  ⟨Array.ofFn fun i : Fin size =>
    Entry.ofBytes (Vector.ofFn fun j => bytes.getD (entrySize * i.val + j.val) 0)⟩

@[simp] theorem size_image (d : Directory) : d.image.size = fileSize d.size := by
  simp [image]

@[simp] theorem size_ofImage (size : Nat) (bytes : Array UInt8) :
    (ofImage size bytes).size = size := by
  simp [ofImage, Directory.size]

theorem getElem_image (d : Directory) {i j : Nat} (hi : i < d.slots.size) (hj : j < 32)
    (h : entrySize * i + j < d.image.size) :
    d.image[entrySize * i + j] = d.slots[i].bytes[j] := by
  have hdiv : (32 * i + j) / 32 = i := by omega
  have hmod : (32 * i + j) % 32 = j := by omega
  simp [image, Array.getD_eq_getD_getElem?, hdiv, hmod, hi]

@[simp] theorem ofImage_image (d : Directory) : ofImage d.size d.image = d := by
  obtain ⟨slots⟩ := d
  refine congrArg Directory.mk (Array.ext (by simp [Directory.size]) fun i h₁ hi => ?_)
  rw [Array.getElem_ofFn, ← Entry.ofBytes_bytes slots[i]]
  refine congrArg Entry.ofBytes (Vector.ext fun j hj => ?_)
  have h : entrySize * i + j < (Directory.image ⟨slots⟩).size := by
    have hi : i < slots.size := hi
    simp only [size_image, fileSize, Directory.size, entrySize]
    omega
  simp only [Vector.getElem_ofFn, Array.getD_eq_getD_getElem?, Array.getElem?_eq_getElem h,
    Option.getD_some]
  exact getElem_image ⟨slots⟩ hi hj h

theorem getElem?_image_ofImage {size k : Nat} (bytes : Array UInt8) (hk : k < fileSize size) :
    (ofImage size bytes).image[k]? = some (bytes.getD k 0) := by
  obtain ⟨i, j, hj, rfl⟩ : ∃ i j, j < 32 ∧ k = 32 * i + j := ⟨k / 32, k % 32, by omega, by omega⟩
  have hi : i < (ofImage size bytes).slots.size := by
    have := size_ofImage size bytes
    simp only [Directory.size, fileSize, entrySize] at *
    omega
  have hk' : entrySize * i + j < (ofImage size bytes).image.size := by
    rwa [size_image, size_ofImage]
  rw [Array.getElem?_eq_getElem hk', getElem_image _ hi hj hk']
  simp [ofImage]

theorem image_ofImage {size : Nat} {bytes : Array UInt8} (h : bytes.size = fileSize size) :
    (ofImage size bytes).image = bytes := by
  apply Array.ext (by simp [h])
  intro k h₁ hk
  have hbyte := getElem?_image_ofImage bytes (h ▸ hk)
  rw [Array.getElem?_eq_getElem h₁] at hbyte
  simpa [Array.getD_eq_getD_getElem?, hk] using hbyte

theorem ofImage_congr {size : Nat} {a b : Array UInt8}
    (h : ∀ k < fileSize size, a.getD k 0 = b.getD k 0) : ofImage size a = ofImage size b := by
  have hrow (i : Fin size) : (Vector.ofFn fun j : Fin 32 => a.getD (entrySize * i.val + j.val) 0)
      = Vector.ofFn fun j : Fin 32 => b.getD (entrySize * i.val + j.val) 0 := by
    refine congrArg Vector.ofFn (funext fun j => h _ ?_)
    simp only [fileSize, entrySize]
    omega
  simp only [ofImage, hrow]

end Directory

end IndexedDisk
