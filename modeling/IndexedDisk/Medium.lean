import IndexedDisk.Sector

/-!
# The medium

The bytes under a disk. A medium has a length, it grows when bytes are written past its end, and
a gap that such a write leaves reads as zeros. `size` and `byteAt` say all there is to know of a
medium (`Medium.ext_byteAt`), and each operation has an equation for either.
-/

namespace IndexedDisk

/-- A string of bytes that can be written in place. -/
structure Medium where
  bytes : ByteArray
deriving Inhabited

namespace Medium

/-- Bytes in the medium. -/
def size (m : Medium) : Nat := m.bytes.size

/-- Byte `i`, zero past the end. -/
def byteAt (m : Medium) (i : Nat) : UInt8 := if h : i < m.bytes.size then m.bytes[i] else 0

/-- A medium of `n` equal bytes. -/
def replicate (n : Nat) (b : UInt8) : Medium := ⟨⟨Array.replicate n b⟩⟩

/-- The medium with zeros after its end, up to `n` bytes. -/
def padTo (m : Medium) (n : Nat) : Medium :=
  if m.size < n then ⟨m.bytes ++ ⟨Array.replicate (n - m.size) 0⟩⟩ else m

/-- The medium cut, or extended with zeros, to `n` bytes. -/
def resize (m : Medium) (n : Nat) : Medium :=
  if n < m.size then ⟨m.bytes.extract 0 n⟩ else m.padTo n

/-- The medium with `source` written at `start`. Writing no bytes does not extend it. -/
def write (m : Medium) (start : Nat) (source : Array UInt8) : Medium :=
  if source.isEmpty then m
  else ⟨(ByteArray.mk source).copySlice 0 (m.padTo start).bytes start source.size⟩

/-- The sector `s` of the medium, if all its bytes are there. -/
def sector? (m : Medium) (s : Nat) : Option Sector :=
  if sectorSize * (s + 1) ≤ m.size then
    some (Vector.ofFn fun i => m.byteAt (sectorSize * s + i))
  else none

/-- The medium with its first `count` sectors zero. -/
def clear (m : Medium) (count : Nat) : Medium :=
  m.write 0 (Array.replicate (sectorSize * count) 0)

/-! ## The view -/

theorem size_eq (m : Medium) : m.size = m.bytes.data.size := rfl

theorem byteAt_eq (m : Medium) (i : Nat) : m.byteAt i = (m.bytes.data[i]?).getD 0 := by
  unfold byteAt
  by_cases h : i < m.bytes.size
  · rw [dif_pos h, Array.getElem?_eq_getElem h]
    rfl
  · rw [dif_neg h, Array.getElem?_eq_none (Nat.le_of_not_lt h)]
    rfl

theorem byteAt_of_le {m : Medium} {i : Nat} (h : m.size ≤ i) : m.byteAt i = 0 :=
  dif_neg (Nat.not_lt.mpr h)

theorem ext_byteAt {m n : Medium} (hs : m.size = n.size) (hb : ∀ i, m.byteAt i = n.byteAt i) :
    m = n := by
  obtain ⟨⟨a⟩⟩ := m
  obtain ⟨⟨b⟩⟩ := n
  have hs : a.size = b.size := hs
  congr 2
  apply Array.ext hs
  intro i ha hb'
  have := hb i
  simpa [byteAt_eq, ha, hb'] using this

@[simp] theorem size_replicate (n : Nat) (b : UInt8) : (replicate n b).size = n := by
  simp [replicate, size, ByteArray.size]

theorem size_padTo (m : Medium) (n : Nat) : (m.padTo n).size = max m.size n := by
  unfold padTo
  split
  · simp only [size, ByteArray.size_append] at *
    simp only [ByteArray.size, Array.size_replicate]
    simp only [ByteArray.size] at *
    omega
  · omega

@[simp] theorem byteAt_padTo (m : Medium) (n i : Nat) : (m.padTo n).byteAt i = m.byteAt i := by
  unfold padTo
  split
  · simp only [byteAt_eq, ByteArray.data_append, Array.getElem?_append]
    split
    · rfl
    · rename_i h
      rw [Array.getElem?_eq_none (Nat.le_of_not_lt h), Array.getElem?_replicate]
      split <;> rfl
  · rfl

theorem size_write (m : Medium) (start : Nat) {source : Array UInt8} (h : 0 < source.size) :
    (m.write start source).size = max m.size (start + source.size) := by
  have he : source.isEmpty = false := by simpa using Array.ne_empty_of_size_pos h
  have hp := size_padTo m start
  simp only [write, he, size, ByteArray.size] at *
  simp [ByteArray.copySlice, hp]
  omega

theorem byteAt_write (m : Medium) (start : Nat) (source : Array UInt8) (i : Nat) :
    (m.write start source).byteAt i =
      if start ≤ i ∧ i < start + source.size then source.getD (i - start) 0 else m.byteAt i := by
  unfold write
  by_cases he : source.isEmpty
  · have hz : source.size = 0 := by simpa using he
    rw [if_pos he, if_neg (by omega)]
  rw [if_neg he]
  have hs : start ≤ (m.padTo start).bytes.data.size := by
    have := size_padTo m start
    simp only [size_eq] at this
    omega
  rw [← byteAt_padTo m start i, byteAt_eq, byteAt_eq]
  generalize (m.padTo start).bytes = target at hs ⊢
  simp only [ByteArray.copySlice, Nat.zero_add, Nat.sub_zero, Nat.min_self, Array.getElem?_append,
    Array.size_extract, Array.size_append, Array.getElem?_extract]
  by_cases h : start ≤ i ∧ i < start + source.size
  · rw [if_pos h, if_pos (by omega), if_neg (by omega), if_pos (by omega),
      Array.getD_eq_getD_getElem?]
    congr 2
    omega
  · rw [if_neg h]
    by_cases hi : i < start
    · rw [if_pos (by omega), if_pos (by omega), if_pos (by omega)]
    · rw [if_neg (by omega)]
      split
      · congr 2
        omega
      · rw [Array.getElem?_eq_none (by omega)]

@[simp] theorem write_empty (m : Medium) (start : Nat) : m.write start #[] = m := rfl

theorem write_append (m : Medium) (start : Nat) (a b : Array UInt8) :
    (m.write start a).write (start + a.size) b = m.write start (a ++ b) := by
  obtain ha | ha := Nat.eq_zero_or_pos a.size
  · obtain rfl := Array.eq_empty_of_size_eq_zero ha
    simp
  obtain hb | hb := Nat.eq_zero_or_pos b.size
  · obtain rfl := Array.eq_empty_of_size_eq_zero hb
    simp
  apply ext_byteAt
  · rw [size_write _ _ hb, size_write _ _ ha, size_write _ _ (by rw [Array.size_append]; omega),
      Array.size_append]
    omega
  · intro i
    simp only [byteAt_write, Array.size_append, Array.getD_eq_getD_getElem?, Array.getElem?_append]
    by_cases hi : start + a.size ≤ i ∧ i < start + a.size + b.size
    · rw [if_pos hi, if_pos (by omega), if_neg (by omega), Nat.sub_add_eq]
    · rw [if_neg hi]
      by_cases hi' : start ≤ i ∧ i < start + a.size
      · rw [if_pos hi', if_pos (by omega), if_pos (by omega)]
      · rw [if_neg hi', if_neg (by omega)]

theorem size_clear (m : Medium) {count : Nat} (h : count ≠ 0) :
    (m.clear count).size = max m.size (sectorSize * count) := by
  have hpos : 0 < (Array.replicate (sectorSize * count) (0 : UInt8)).size := by
    rw [Array.size_replicate, sectorSize]
    omega
  rw [clear, size_write _ _ hpos, Array.size_replicate, Nat.zero_add]

theorem byteAt_clear (m : Medium) (count i : Nat) :
    (m.clear count).byteAt i = if i < sectorSize * count then 0 else m.byteAt i := by
  rw [clear, byteAt_write, Array.size_replicate]
  by_cases h : i < sectorSize * count
  · rw [if_pos (by omega), if_pos h, Array.getD_eq_getD_getElem?, Array.getElem?_replicate,
      if_pos (by omega)]
    rfl
  · rw [if_neg (by omega), if_neg h]

theorem byteAt_resize (m : Medium) (n i : Nat) :
    (m.resize n).byteAt i = if i < n then m.byteAt i else 0 := by
  unfold resize
  split
  · rename_i h
    simp only [byteAt_eq, ByteArray.data_extract, Array.getElem?_extract, Nat.zero_add]
    rw [size_eq] at h
    by_cases hi : i < n
    · rw [if_pos hi, if_pos (by omega)]
    · rw [if_neg hi, if_neg (by omega)]
      rfl
  · rename_i h
    rw [byteAt_padTo]
    split
    · rfl
    · exact byteAt_of_le (by omega)

@[simp] theorem size_resize (m : Medium) (n : Nat) : (m.resize n).size = n := by
  unfold resize
  split
  · rename_i h
    simp only [size_eq, ByteArray.data_extract, Array.size_extract] at *
    omega
  · rw [size_padTo]
    omega

/-! ## Sectors -/

theorem sector?_eq_none {m : Medium} {s : Nat} (h : m.size < sectorSize * (s + 1)) :
    m.sector? s = none :=
  if_neg (by omega)

theorem sector?_eq_some {m : Medium} {s : Nat} (h : sectorSize * (s + 1) ≤ m.size) :
    m.sector? s = some (Vector.ofFn fun i => m.byteAt (sectorSize * s + i)) :=
  if_pos h

theorem sector?_write_self (m : Medium) (s : Nat) (bytes : Sector) :
    (m.write (sectorSize * s) bytes.toArray).sector? s = some bytes := by
  rw [sector?_eq_some (by
    rw [size_write _ _ (by simp), Vector.size_toArray, sectorSize]
    omega)]
  refine congrArg some (Vector.ext ?_)
  intro i hi
  have h : sectorSize * s ≤ sectorSize * s + i
      ∧ sectorSize * s + i < sectorSize * s + bytes.toArray.size := by
    rw [Vector.size_toArray]
    omega
  rw [Vector.getElem_ofFn, byteAt_write, if_pos h, Nat.add_sub_cancel_left]
  simp [Array.getD, hi]

theorem sector?_write_of_ne {m : Medium} {s t : Nat} {bytes b : Sector} (hne : t ≠ s)
    (h : m.sector? t = some b) :
    (m.write (sectorSize * s) bytes.toArray).sector? t = some b := by
  have ht : sectorSize * (t + 1) ≤ m.size := by
    apply Nat.le_of_not_lt
    intro hlt
    rw [sector?_eq_none hlt] at h
    cases h
  rw [sector?_eq_some ht] at h
  rw [sector?_eq_some (by rw [size_write _ _ (by simp)]; omega), ← h]
  congr 2
  funext i
  rw [byteAt_write, if_neg]
  have := i.isLt
  simp only [sectorSize, Vector.size_toArray] at *
  omega

end Medium

end IndexedDisk
