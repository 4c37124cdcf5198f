import IndexedDisk.Bytes
import IndexedDisk.Geometry
import IndexedDisk.Word

/-!
# Sectors

The contents of one sector, as 128 bytes or as 32 stored words.

* `word_ofWords`, `ofWords_words`: the words of a sector and its bytes determine each other, so
  that every sector is the stored form of something.
* `getElem_patch`: what a patch changes.
-/

namespace IndexedDisk

/-- The bytes of one sector. -/
abbrev Sector : Type := Vector UInt8 128

namespace Sector

/-- A sector of zeros. -/
def zero : Sector := Vector.replicate 128 0

/-- Word `k` of a sector, zero past its end. -/
def word (s : Sector) (k : Nat) : Int32 :=
  if h : k < 32 then
    (Word.ofBytes s[4 * k] s[4 * k + 1] s[4 * k + 2] s[4 * k + 3]).toInt32
  else 0

/-- The words that a sector holds. -/
def words (s : Sector) : Vector Int32 32 :=
  Vector.ofFn fun k => s.word k.val

/-- The sector that holds the given words. -/
def ofWords (w : Vector Int32 32) : Sector :=
  Vector.ofFn fun i => Word.byte w[i.val / 4].toUInt32 (i.val % 4)

/-- The sector with `source` over its bytes from `start` on. -/
def patch (s : Sector) (start : Nat) (source : Array UInt8) : Sector :=
  ⟨Bytes.overlay s.toArray start source, by simp⟩

/-! ## Words and bytes -/

@[simp] theorem getElem_words (s : Sector) {k : Nat} (hk : k < 32) : s.words[k] = s.word k :=
  Vector.getElem_ofFn hk

@[simp] theorem word_ofWords (w : Vector Int32 32) {k : Nat} (hk : k < 32) :
    (ofWords w).word k = w[k] := by
  have h (j : Nat) (hj : j < 4) :
      (ofWords w)[4 * k + j] = Word.byte w[k].toUInt32 j := by
    have hdiv : (4 * k + j) / 4 = k := by omega
    have hmod : (4 * k + j) % 4 = j := by omega
    simp [ofWords, hdiv, hmod]
  have h0 := h 0 (by decide)
  simp only [Nat.add_zero] at h0
  simp [word, hk, h0, h 1 (by decide), h 2 (by decide), h 3 (by decide)]

@[simp] theorem ofWords_words (s : Sector) : ofWords s.words = s := by
  apply Vector.ext
  intro i hi
  obtain ⟨k, j, hj, rfl⟩ : ∃ k j, j < 4 ∧ i = 4 * k + j := ⟨i / 4, i % 4, by omega, by omega⟩
  have hdiv : (4 * k + j) / 4 = k := by omega
  have hmod : (4 * k + j) % 4 = j := by omega
  have hk : k < 32 := by omega
  simp only [ofWords, words, word, Vector.getElem_ofFn, hdiv, hmod, dif_pos hk,
    UInt32.toUInt32_toInt32]
  rw [Word.byte_ofBytes _ _ _ _ hj]
  match j, hj with
  | 0, _ => rfl
  | 1, _ => rfl
  | 2, _ => rfl
  | 3, _ => rfl

/-! ## Patches -/

theorem getElem_patch (s : Sector) (start : Nat) (source : Array UInt8) {i : Nat} (hi : i < 128) :
    (s.patch start source)[i] =
      if h : start ≤ i ∧ i < start + source.size then source[i - start] else s[i] := by
  have key := Bytes.getElem?_overlay s.toArray start source i
  rw [Array.getElem?_eq_getElem (by simpa using hi)] at key
  by_cases h : start ≤ i ∧ i < start + source.size
  · rw [if_pos (by simp; omega), Array.getElem?_eq_getElem (by omega)] at key
    rw [dif_pos h]
    exact Option.some_inj.mp key
  · rw [if_neg (by simp; omega), Array.getElem?_eq_getElem (by simpa using hi)] at key
    rw [dif_neg h]
    exact Option.some_inj.mp key

end Sector

end IndexedDisk
