import IndexedDisk.Header.Basic

/-!
# Open files

A file that is open: where its header lies, the header as it was read, and a position. A file has
the length that it was made with, and a transfer stops at its end.

* `spans` cuts a byte range at the sector boundaries (`bounds_of_mem_spans`, `sum_length_spans`).
* `readAt` and `writeAt` move the bytes of a range span by span, so that a transfer that fails has
  moved a prefix of the range and nothing else.
* `read` and `write` start at the position and move it on by what was transferred.
-/

namespace IndexedDisk

/-- A file that is open. -/
structure OpenFile where
  /-- The sector of the header. -/
  sector : Int32
  /-- The header as it was when the file was opened. -/
  header : Header
  position : Nat := 0
deriving DecidableEq, Inhabited

/-- Bytes of a file that lie in one sector. -/
structure Span where
  offset : Nat
  length : Nat
deriving DecidableEq, Repr

/-- The range from `start` to `stop`, cut at the sector boundaries. -/
def spans (start stop : Nat) : List Span :=
  if start < stop then
    let length := min (stop - start) (sectorSize - start % sectorSize)
    ⟨start, length⟩ :: spans (start + length) stop
  else []
termination_by stop - start
decreasing_by simp only [sectorSize]; omega

/-- Where a span starts in its sector. -/
def Span.start (span : Span) : Nat := span.offset % sectorSize

theorem spans_of_le {start stop : Nat} (h : stop ≤ start) : spans start stop = [] := by
  rw [spans, if_neg (by omega)]

/-- Every span of a range holds bytes of it, and all of them in one sector. -/
theorem bounds_of_mem_spans {start stop : Nat} {span : Span} (h : span ∈ spans start stop) :
    start ≤ span.offset ∧ 0 < span.length ∧ span.offset + span.length ≤ stop
      ∧ span.start + span.length ≤ sectorSize := by
  fun_induction spans start stop with
  | case1 start hlt length ih =>
    have hl : length = min (stop - start) (128 - start % 128) := rfl
    rcases List.mem_cons.mp h with rfl | h
    · simp only [Span.start, sectorSize]
      omega
    · have := ih h
      omega
  | case2 => cases h

theorem sum_length_spans (start stop : Nat) :
    (spans start stop).foldr (fun span n => span.length + n) 0 = stop - start := by
  fun_induction spans start stop with
  | case1 start hlt length ih =>
    have hl : length = min (stop - start) (128 - start % 128) := rfl
    rw [List.foldr_cons, ih]
    dsimp only
    omega
  | case2 start hge => exact (Nat.sub_eq_zero_of_le (Nat.le_of_not_lt hge)).symm

namespace OpenFile

/-- Opens the file whose header lies at `p`. -/
def openAt (p : Int32) : DiskM OpenFile := do
  return { sector := p, header := ← Header.fetch p }

/-- Bytes in the file. -/
def length (f : OpenFile) : Nat := f.header.length

/-- The file with its position moved to `position`. -/
def seek (f : OpenFile) (position : Nat) : OpenFile := { f with position }

/-- Where a transfer of `count` bytes from `position` on ends. -/
def stop (f : OpenFile) (position count : Nat) : Except Breach Nat :=
  if position + count < 0x10000000000000000 then .ok (min (position + count) f.length)
  else .error .arithmetic

/-! ## Reading -/

/-- Puts the bytes of a span into a buffer for the range from `position` on. -/
def readSpan (f : OpenFile) (position : Nat) (span : Span) : Disk.WithM (Array UInt8) Unit := do
  let sector ← f.header.sectorOf span.offset
  let bytes ← Disk.readSector (Word.wide sector)
  let piece := bytes.toArray.extract span.start (span.start + span.length)
  fun ⟨disk, buffer⟩ => .ok () ⟨disk, Bytes.overlay buffer (span.offset - position) piece⟩

/-- Puts the bytes of spans into a buffer, in order. -/
def readSpans (f : OpenFile) (position : Nat) : List Span → Disk.WithM (Array UInt8) Unit
  | [] => pure ()
  | span :: rest => do
    f.readSpan position span
    f.readSpans position rest

/-- Bytes in the buffer of a read. -/
def room : Disk.WithM (Array UInt8) Nat := fun held => .ok held.value.size held

/--
Fills a buffer with the bytes of the file from `position` on, as far as there are any, and returns
how many there were.
-/
def readAt (f : OpenFile) (position : Nat) : Disk.WithM (Array UInt8) Nat := do
  let count ← room
  if f.length ≤ position ∨ count = 0 then pure 0
  else do
    let stop ← f.stop position count
    f.readSpans position (spans position stop)
    return stop - position

/-- Reads from the position on, and moves it. -/
def read (f : OpenFile) : Disk.WithM (Array UInt8) (Nat × OpenFile) := do
  let count ← f.readAt f.position
  return (count, f.seek (f.position + count))

/-! ## Writing -/

/-- Writes the bytes of a span. A span that is not a whole sector keeps the bytes around it. -/
def writeSpan (f : OpenFile) (position : Nat) (data : Array UInt8) (span : Span) :
    DiskM Unit := do
  let sector ← f.header.sectorOf span.offset
  let base ←
    if span.length < sectorSize then Disk.readSector (Word.wide sector) else pure Sector.zero
  let piece := data.extract (span.offset - position) (span.offset - position + span.length)
  Disk.writeSector (Word.wide sector) (base.patch span.start piece)

/-- Writes the bytes of spans, in order. -/
def writeSpans (f : OpenFile) (position : Nat) (data : Array UInt8) : List Span → DiskM Unit
  | [] => pure ()
  | span :: rest => do
    f.writeSpan position data span
    f.writeSpans position data rest

/--
Writes `data` to the file from `position` on, as far as the file reaches, and returns how many
bytes were written.
-/
def writeAt (f : OpenFile) (position : Nat) (data : Array UInt8) : DiskM Nat :=
  if f.length ≤ position ∨ data.size = 0 then pure 0
  else do
    let stop ← f.stop position data.size
    f.writeSpans position data (spans position stop)
    return stop - position

/-- Writes from the position on, and moves it. -/
def write (f : OpenFile) (data : Array UInt8) : DiskM (Nat × OpenFile) := do
  let count ← f.writeAt f.position data
  return (count, f.seek (f.position + count))

end OpenFile

end IndexedDisk
