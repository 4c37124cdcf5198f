import IndexedDisk.Failure
import IndexedDisk.Geometry
import IndexedDisk.Word

/-!
# Directory entries

One slot of a directory: whether it is in use, the sector of a header, a name and a kind. A stored
slot can hold any 32 bytes. Its name ends at the first NUL, or after 19 bytes if there is none;
bytes that are not text make the empty name. A slot and its 32 bytes determine each other
(`ofBytes_bytes`, `bytes_ofBytes`).
-/

namespace IndexedDisk

/-- What an entry names. -/
inductive EntryKind where
  | file
  | directory
deriving DecidableEq, Repr, Inhabited

namespace EntryKind

/-- The letter for a kind in a listing. -/
def letter : EntryKind → String
  | file => "F"
  | directory => "D"

/-- The word for a kind in a description. -/
def word : EntryKind → String
  | file => "File"
  | directory => "Directory"

/-- The stored form of a kind. -/
def code : EntryKind → UInt32
  | file => 0
  | directory => 1

end EntryKind

/-- One slot of a directory. -/
structure Entry where
  used : UInt32
  sector : Int32
  label : Vector UInt8 20
  kindCode : UInt32
deriving DecidableEq

namespace Entry

/-- A slot of zeros. -/
def blank : Entry where
  used := 0
  sector := 0
  label := Vector.replicate 20 0
  kindCode := 0

instance : Inhabited Entry := ⟨blank⟩

/-- The slot that names the header at `sector`. -/
def named (name : String) (sector : Int32) (kind : EntryKind) : Entry :=
  let bytes := name.toUTF8.toList
  { used := 1
    sector
    label := Vector.ofFn fun i => bytes.getD i.val 0
    kindCode := kind.code }

/-- The slot is in use. -/
def inUse (e : Entry) : Bool := e.used != 0

/-- The bytes of the name. -/
def nameBytes (e : Entry) : List UInt8 :=
  (e.label.toList.takeWhile (· != 0)).take maxNameLength

/-- The name. -/
def name (e : Entry) : String :=
  (String.fromUTF8? ⟨e.nameBytes.toArray⟩).getD ""

/-- What the slot names. Everything but a directory counts as a file. -/
def kind (e : Entry) : EntryKind :=
  if e.kindCode = EntryKind.directory.code then .directory else .file

/-- The slot names a directory. -/
def isDirectory (e : Entry) : Bool := e.kind == .directory

/-- The slot with its entry given up. All else stays as it was. -/
def retired (e : Entry) : Entry := { e with used := 0 }

/-- The stored form of a slot. -/
def bytes (e : Entry) : Vector UInt8 32 :=
  Vector.ofFn fun i =>
    if i.val < 4 then Word.byte e.used i.val
    else if i.val < 8 then Word.byte e.sector.toUInt32 (i.val - 4)
    else if h : i.val < 28 then e.label[i.val - 8]
    else Word.byte e.kindCode (i.val - 28)

/-- The slot that bytes store. -/
def ofBytes (b : Vector UInt8 32) : Entry where
  used := Word.ofBytes b[0] b[1] b[2] b[3]
  sector := (Word.ofBytes b[4] b[5] b[6] b[7]).toInt32
  label := Vector.ofFn fun i => b[8 + i.val]
  kindCode := Word.ofBytes b[28] b[29] b[30] b[31]

/-- A slot described field by field. -/
def describe (e : Entry) : String :=
  "DirEntry \x7b in_use: " ++ toString e.inUse ++ ", name: " ++ Escape.quoted e.name
    ++ s!", sector: {e.sector}, kind: " ++ e.kind.word ++ " \x7d"

@[simp] theorem ofBytes_bytes (e : Entry) : ofBytes e.bytes = e := by
  obtain ⟨used, sector, label, kindCode⟩ := e
  simp only [ofBytes, bytes, Vector.getElem_ofFn, mk.injEq]
  refine ⟨Word.ofBytes_byte used, ?_, Vector.ext fun i hi => ?_, Word.ofBytes_byte kindCode⟩
  · exact congrArg UInt32.toInt32 (Word.ofBytes_byte sector.toUInt32)
  · have h4 : ¬ 8 + i < 4 := by omega
    have h8 : ¬ 8 + i < 8 := by omega
    have h28 : 8 + i < 28 := by omega
    simp only [h4, h8, h28, if_false, dif_pos, Nat.add_sub_cancel_left, Vector.getElem_ofFn]

@[simp] theorem bytes_ofBytes (b : Vector UInt8 32) : (ofBytes b).bytes = b := by
  refine Vector.ext fun i hi => ?_
  simp only [ofBytes, bytes, Vector.getElem_ofFn, UInt32.toUInt32_toInt32]
  split
  · rename_i h
    rw [Word.byte_ofBytes _ _ _ _ h]
    match i, h with
    | 0, _ => rfl
    | 1, _ => rfl
    | 2, _ => rfl
    | 3, _ => rfl
  split
  · rename_i h4 h8
    rw [Word.byte_ofBytes _ _ _ _ (by omega)]
    obtain ⟨k, rfl⟩ : ∃ k, i = k + 4 := ⟨i - 4, by omega⟩
    have hk : k < 4 := by omega
    match k, hk with
    | 0, _ => rfl
    | 1, _ => rfl
    | 2, _ => rfl
    | 3, _ => rfl
  split
  · have h : 8 + (i - 8) = i := by omega
    simp [h]
  · rw [Word.byte_ofBytes _ _ _ _ (by omega)]
    obtain ⟨k, rfl⟩ : ∃ k, i = k + 28 := ⟨i - 28, by omega⟩
    have hk : k < 4 := by omega
    match k, hk with
    | 0, _ => rfl
    | 1, _ => rfl
    | 2, _ => rfl
    | 3, _ => rfl

end Entry

end IndexedDisk
