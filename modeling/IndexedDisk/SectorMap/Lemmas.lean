import IndexedDisk.SectorMap.Basic

/-!
# Laws of the sector map

`size` and `bit` say all there is to know of a map (`ext_bit`), and each operation has an equation
for either.

* `take_eq_some_iff`, `take_eq_none_iff`: the lowest free sector is taken, and there is one unless
  all sectors are in use.
* `ofImage_image`, `image_ofImage`: a map and its image determine each other.
-/

namespace IndexedDisk.SectorMap

/-! ## The view -/

theorem bit_of_le {m : SectorMap} {i : Nat} (h : 8 * imageSize m.size ≤ i) : m.bit i = false := by
  simp [bit, Array.getD_eq_getD_getElem?, Array.getElem?_eq_none (m.size_bits ▸ h)]

theorem ext_bit {m n : SectorMap} (hs : m.size = n.size) (hb : ∀ i, m.bit i = n.bit i) :
    m = n := by
  obtain ⟨size, a, ha⟩ := m
  obtain ⟨_, b, hb'⟩ := n
  obtain rfl : size = _ := hs
  congr
  apply Array.ext (ha.trans hb'.symm)
  intro i h₁ h₂
  simpa [bit, Array.getD_eq_getD_getElem?, h₁, h₂] using hb i

@[simp] theorem size_empty (size : Nat) : (empty size).size = size := rfl

@[simp] theorem bit_empty (size i : Nat) : (empty size).bit i = false := by
  simp only [bit, empty, Array.getD_eq_getD_getElem?, Array.getElem?_replicate]
  split <;> rfl

@[simp] theorem size_setBit (m : SectorMap) (i : Nat) (b : Bool) : (m.setBit i b).size = m.size :=
  rfl

theorem bit_setBit (m : SectorMap) {i : Nat} (hi : i < m.size) (b : Bool) (j : Nat) :
    (m.setBit i b).bit j = if j = i then b else m.bit j := by
  have h : i < m.bits.size := by
    rw [m.size_bits, imageSize]
    omega
  simp only [bit, setBit, Array.getD_eq_getD_getElem?, Array.getElem?_setIfInBounds, h, if_true]
  by_cases hj : j = i
  · simp [hj]
  · rw [if_neg (Ne.symm hj), if_neg hj]

/-! ## The lowest free sector -/

theorem lt_size_bits (m : SectorMap) {i : Nat} (hi : i < m.size) : i < m.bits.size := by
  rw [m.size_bits, imageSize]
  omega

theorem bit_eq_getElem (m : SectorMap) {i : Nat} (h : i < m.bits.size) : m.bit i = m.bits[i] := by
  simp [bit, Array.getD_eq_getD_getElem?, h]

theorem take_eq_none_iff (m : SectorMap) : m.take = none ↔ ∀ i < m.size, m.bit i = true := by
  unfold take
  split
  · rename_i i hi
    obtain ⟨h, hclear, hset⟩ := Array.findIdx?_eq_some_iff_getElem.mp hi
    split
    · rename_i hlt
      refine ⟨by simp, fun hall => ?_⟩
      rw [← bit_eq_getElem m h, hall i hlt] at hclear
      simp at hclear
    · rename_i hge
      refine ⟨fun _ j hj => ?_, fun _ => rfl⟩
      have := hset j (by omega)
      rw [← bit_eq_getElem m (by omega)] at this
      simpa using this
  · rename_i hnone
    refine ⟨fun _ j hj => ?_, fun _ => rfl⟩
    rw [bit_eq_getElem m (lt_size_bits m hj)]
    simpa using Array.findIdx?_eq_none_iff.mp hnone _ (Array.getElem_mem (lt_size_bits m hj))

theorem take_eq_some_iff (m n : SectorMap) (i : Nat) :
    m.take = some (i, n) ↔
      i < m.size ∧ m.bit i = false ∧ (∀ j < i, m.bit j = true) ∧ n = m.setBit i true := by
  unfold take
  split
  · rename_i k hk
    obtain ⟨h, hclear, hset⟩ := Array.findIdx?_eq_some_iff_getElem.mp hk
    have hclear : m.bit k = false := by
      rw [bit_eq_getElem m h]
      simpa using hclear
    have hset : ∀ j < k, m.bit j = true := by
      intro j hj
      rw [bit_eq_getElem m (by omega)]
      simpa using hset j hj
    constructor
    · intro heq
      split at heq
      · rename_i hlt
        cases heq
        exact ⟨hlt, hclear, hset, rfl⟩
      · cases heq
    · rintro ⟨hi, hbit, hbelow, rfl⟩
      have : k = i := by
        rcases Nat.lt_trichotomy k i with hlt | heq | hlt
        · simp [hbelow k hlt] at hclear
        · exact heq
        · simp [hset i hlt] at hbit
      subst this
      rw [if_pos hi]
  · rename_i hnone
    refine ⟨by simp, fun ⟨hi, hbit, _⟩ => ?_⟩
    have := Array.findIdx?_eq_none_iff.mp hnone _ (Array.getElem_mem (lt_size_bits m hi))
    rw [← bit_eq_getElem m (lt_size_bits m hi), hbit] at this
    simp at this

/-! ## Bits and bytes -/

theorem natOfBits_lt (b : Nat → Bool) : natOfBits b < 256 := by
  have h (k : Nat) := (b k).toNat_le
  have := h 0
  have := h 1
  have := h 2
  have := h 3
  have := h 4
  have := h 5
  have := h 6
  have := h 7
  unfold natOfBits
  omega

theorem testBit_zero_add (c : Bool) (n : Nat) : (c.toNat + 2 * n).testBit 0 = c := by
  cases c <;> simp [Nat.testBit_zero]

theorem testBit_succ_add (c : Bool) (n k : Nat) :
    (c.toNat + 2 * n).testBit (k + 1) = n.testBit k := by
  have h : (c.toNat + 2 * n) / 2 = n := by
    have := c.toNat_le
    omega
  rw [Nat.testBit_succ, h]

@[simp] theorem testBit_byteOfBits (b : Nat → Bool) {k : Nat} (hk : k < 8) :
    (byteOfBits b).toNat.testBit k = b k := by
  rw [byteOfBits, UInt8.toNat_ofNat', Nat.mod_eq_of_lt (natOfBits_lt b), natOfBits]
  have h7 : (b 7).toNat = (b 7).toNat + 2 * 0 := rfl
  match k, hk with
  | 0, _ => rw [testBit_zero_add]
  | 1, _ => rw [testBit_succ_add, testBit_zero_add]
  | 2, _ => rw [testBit_succ_add, testBit_succ_add, testBit_zero_add]
  | 3, _ => rw [testBit_succ_add, testBit_succ_add, testBit_succ_add, testBit_zero_add]
  | 4, _ => simp only [testBit_succ_add, testBit_zero_add]
  | 5, _ => simp only [testBit_succ_add, testBit_zero_add]
  | 6, _ => simp only [testBit_succ_add, testBit_zero_add]
  | 7, _ =>
    simp only [testBit_succ_add]
    rw [h7, testBit_zero_add]

@[simp] theorem byteOfBits_testBit (x : UInt8) : byteOfBits x.toNat.testBit = x := by
  have hx := x.toNat_lt
  apply UInt8.toNat_inj.mp
  rw [byteOfBits, UInt8.toNat_ofNat', Nat.mod_eq_of_lt (natOfBits_lt _), natOfBits]
  simp only [Nat.toNat_testBit, Nat.reducePow] at *
  omega

@[simp] theorem size_image (m : SectorMap) : m.image.size = imageSize m.size := by
  simp [image]

@[simp] theorem size_ofImage (size : Nat) (bytes : Array UInt8) : (ofImage size bytes).size = size :=
  rfl

theorem bit_ofImage (size : Nat) (bytes : Array UInt8) {i : Nat} (hi : i < 8 * imageSize size) :
    (ofImage size bytes).bit i = (bytes.getD (i / 8) 0).toNat.testBit (i % 8) := by
  simp [bit, ofImage, Array.getD_eq_getD_getElem?, hi]

theorem ofImage_congr {size : Nat} {a b : Array UInt8}
    (h : ∀ j < imageSize size, a.getD j 0 = b.getD j 0) : ofImage size a = ofImage size b := by
  refine ext_bit rfl fun i => ?_
  by_cases hi : i < 8 * imageSize size
  · rw [bit_ofImage _ _ hi, bit_ofImage _ _ hi, h _ (by omega)]
  · have hi := Nat.le_of_not_lt hi
    rw [bit_of_le (m := ofImage size a) hi, bit_of_le (m := ofImage size b) hi]

@[simp] theorem ofImage_image (m : SectorMap) : ofImage m.size m.image = m := by
  refine ext_bit (size_ofImage _ _) fun i => ?_
  by_cases hi : i < 8 * imageSize m.size
  · have hj : i / 8 < imageSize m.size := by omega
    rw [bit_ofImage _ _ hi]
    simp only [image, Array.getD_eq_getD_getElem?, Array.getElem?_ofFn, hj, dif_pos,
      Option.getD_some]
    rw [testBit_byteOfBits _ (Nat.mod_lt i (by decide))]
    congr 1
    omega
  · have hi := Nat.le_of_not_lt hi
    rw [bit_of_le (m := ofImage m.size m.image) hi, bit_of_le hi]

theorem image_ofImage {size : Nat} {bytes : Array UInt8} (h : bytes.size = imageSize size) :
    (ofImage size bytes).image = bytes := by
  apply Array.ext (by simp [h])
  intro j h₁ h₂
  have hj : j < imageSize size := h ▸ h₂
  have hbits : ∀ k < 8, (ofImage size bytes).bit (8 * j + k) = bytes[j].toNat.testBit k := by
    intro k hk
    have hdiv : (8 * j + k) / 8 = j := by omega
    have hmod : (8 * j + k) % 8 = k := by omega
    rw [bit_ofImage _ _ (by omega), hdiv, hmod]
    simp [Array.getD_eq_getD_getElem?, h₂]
  simp only [image, Array.getElem_ofFn]
  rw [← byteOfBits_testBit bytes[j]]
  simp only [byteOfBits, natOfBits, hbits _ (show 0 < 8 by decide), hbits _ (show 1 < 8 by decide),
    hbits _ (show 2 < 8 by decide), hbits _ (show 3 < 8 by decide), hbits _ (show 4 < 8 by decide),
    hbits _ (show 5 < 8 by decide), hbits _ (show 6 < 8 by decide), hbits _ (show 7 < 8 by decide)]

end IndexedDisk.SectorMap
