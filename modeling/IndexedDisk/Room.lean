import IndexedDisk.Failure

/-!
# Room

A table or a buffer is held as one run of bytes, and the number of these bytes is a signed 64-bit
one. A run that would be longer is a breach; its size is looked at before anything is made
(`fill_eq_ok_iff`).
-/

namespace IndexedDisk

/-- Bytes in the longest run that can be held. -/
abbrev maxRoom : Nat := 0x7FFFFFFFFFFFFFFF

namespace Room

/-- A run of `count` copies of a value that takes up `width` bytes. -/
def fill {α : Type} (width count : Nat) (a : α) : Except Breach (Array α) :=
  if count * width ≤ maxRoom then .ok (Array.replicate count a) else .error .overlong

theorem fill_eq_ok_iff {α : Type} {width count : Nat} {a : α} {run : Array α} :
    fill width count a = .ok run ↔ count * width ≤ maxRoom ∧ run = Array.replicate count a := by
  unfold fill
  split
  · next h => simp [h, eq_comm]
  · next h => exact ⟨nofun, fun ⟨h', _⟩ => absurd h' h⟩

end Room

end IndexedDisk
