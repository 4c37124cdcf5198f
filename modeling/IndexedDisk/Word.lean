/-!
# Stored words

A word is 32 bits, least significant byte first. Pointers and counts are stored as signed words;
where one is used as an address or a size it is widened to 64 bits with its sign, so that a
negative word stands for a number no disk reaches.

* `ofBytes_byte`, `byte_ofBytes`: a word and its four bytes determine each other.
* `wide_ofNat`: numbers below 2 ^ 31 survive being stored.
-/

namespace IndexedDisk.Word

/-- Byte `k` of a word, the least significant first. -/
def byte (w : UInt32) (k : Nat) : UInt8 :=
  (w >>> UInt32.ofNat (8 * k)).toUInt8

/-- The four bytes of a word. -/
def bytes (w : UInt32) : Vector UInt8 4 :=
  #v[byte w 0, byte w 1, byte w 2, byte w 3]

/-- The word with the given bytes. -/
def ofBytes (b₀ b₁ b₂ b₃ : UInt8) : UInt32 :=
  b₀.toUInt32 + b₁.toUInt32 * 256 + b₂.toUInt32 * 65536 + b₃.toUInt32 * 16777216

/-- A signed word widened to 64 bits and read as unsigned, that is modulo 2 ^ 64. -/
def wide (w : Int32) : Nat :=
  (w.toInt % 0x10000000000000000).toNat

/-- The signed word for a number, modulo 2 ^ 32. -/
def ofNat (n : Nat) : Int32 :=
  Int32.ofNat n

/-! ## Words and their bytes -/

theorem toNat_byte (w : UInt32) {k : Nat} (hk : k < 4) :
    (byte w k).toNat = w.toNat >>> (8 * k) % 256 := by
  have h : 8 * k % 32 = 8 * k := by omega
  simp [byte, UInt32.toNat_shiftRight, h]

theorem toNat_ofBytes (b₀ b₁ b₂ b₃ : UInt8) :
    (ofBytes b₀ b₁ b₂ b₃).toNat
      = b₀.toNat + b₁.toNat * 256 + b₂.toNat * 65536 + b₃.toNat * 16777216 := by
  have h₀ := b₀.toNat_lt
  have h₁ := b₁.toNat_lt
  have h₂ := b₂.toNat_lt
  have h₃ := b₃.toNat_lt
  simp only [ofBytes, UInt32.toNat_add, UInt32.toNat_mul, UInt8.toNat_toUInt32,
    UInt32.toNat_ofNat, Nat.reducePow, Nat.reduceMod] at *
  omega

@[simp] theorem ofBytes_byte (w : UInt32) :
    ofBytes (byte w 0) (byte w 1) (byte w 2) (byte w 3) = w := by
  have hw := w.toNat_lt
  apply UInt32.toNat_inj.mp
  rw [toNat_ofBytes, toNat_byte w (by decide), toNat_byte w (by decide), toNat_byte w (by decide),
    toNat_byte w (by decide)]
  simp only [Nat.reduceMul, Nat.reducePow] at *
  omega

theorem byte_ofBytes (b₀ b₁ b₂ b₃ : UInt8) {k : Nat} (hk : k < 4) :
    byte (ofBytes b₀ b₁ b₂ b₃) k = #v[b₀, b₁, b₂, b₃][k] := by
  have h₀ := b₀.toNat_lt
  have h₁ := b₁.toNat_lt
  have h₂ := b₂.toNat_lt
  have h₃ := b₃.toNat_lt
  apply UInt8.toNat_inj.mp
  rw [toNat_byte _ hk, toNat_ofBytes]
  simp only [Nat.reducePow] at *
  match k, hk with
  | 0, _ => simp only [Nat.mul_zero]; change _ = b₀.toNat; omega
  | 1, _ => simp only [Nat.mul_one]; change _ = b₁.toNat; omega
  | 2, _ => simp only [Nat.reduceMul]; change _ = b₂.toNat; omega
  | 3, _ => simp only [Nat.reduceMul]; change _ = b₃.toNat; omega

/-! ## Widened words -/

theorem wide_lt (w : Int32) : wide w < 0x10000000000000000 := by
  unfold wide
  omega

theorem wide_injective {v w : Int32} (h : wide v = wide w) : v = w := by
  have := v.le_toInt
  have := v.toInt_lt
  have := w.le_toInt
  have := w.toInt_lt
  apply Int32.toInt_inj.mp
  unfold wide at h
  omega

theorem wide_of_nonneg {w : Int32} (h : 0 ≤ w.toInt) : wide w = w.toInt.toNat := by
  have := w.toInt_lt
  unfold wide
  omega

theorem wide_ofNat {n : Nat} (h : n < 0x80000000) : wide (ofNat n) = n := by
  have : (ofNat n).toInt = n := Int32.toInt_ofNat_of_lt h
  unfold wide
  omega

end IndexedDisk.Word
