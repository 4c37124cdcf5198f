import IndexedDisk.Disk

/-!
# Sinks

Where printed text goes. A sink of bounded capacity keeps what fits of a text and reports that it
is full; a text that fills it exactly is still taken.
-/

namespace IndexedDisk

/-- Printed bytes, and how many the sink has room for in all. -/
structure Sink where
  capacity : Option Nat := none
  bytes : ByteArray := .empty
deriving Inhabited

namespace Sink

/-- Adds text to a sink. -/
def put (text : String) : EStateM DeviceError Sink Unit := fun ⟨capacity, bytes⟩ =>
  let bytes := bytes ++ text.toUTF8
  match capacity with
  | none => .ok () ⟨capacity, bytes⟩
  | some room =>
    if bytes.size ≤ room then .ok () ⟨capacity, bytes⟩
    else .error .sinkFull ⟨capacity, bytes.extract 0 room⟩

/-- Adds text to the sink of a request that prints what is on a disk. -/
def emit (text : String) : Disk.WithM Sink Unit := fun ⟨disk, sink⟩ =>
  match put text sink with
  | .ok _ sink => .ok () ⟨disk, sink⟩
  | .error e sink => .error (.refused (.device e)) ⟨disk, sink⟩

end Sink

end IndexedDisk
