/-!
# Byte strings

`Bytes.overlay` puts one byte string over a part of another and leaves its length alone.
-/

namespace IndexedDisk.Bytes

/-- The bytes of `target` with those of `source` over them from `start` on, as far as they fit. -/
def overlay (target : Array UInt8) (start : Nat) (source : Array UInt8) : Array UInt8 :=
  source.size.fold (fun i h bytes => bytes.setIfInBounds (start + i) source[i]) target

theorem size_fold_set (target : Array UInt8) (start : Nat) (n : Nat)
    (f : (i : Nat) → i < n → UInt8) :
    (n.fold (fun i h bytes => bytes.setIfInBounds (start + i) (f i h)) target).size
      = target.size := by
  induction n with
  | zero => rfl
  | succ n ih => simp [Nat.fold_succ, ih]

theorem getElem?_fold_set (target : Array UInt8) (start : Nat) (n : Nat)
    (f : (i : Nat) → i < n → UInt8) (i : Nat) :
    (n.fold (fun i h bytes => bytes.setIfInBounds (start + i) (f i h)) target)[i]? =
      if h : start ≤ i ∧ i < start + n ∧ i < target.size then some (f (i - start) (by omega))
      else target[i]? := by
  induction n with
  | zero => rw [dif_neg (by omega)]; rfl
  | succ n ih =>
    rw [Nat.fold_succ, Array.getElem?_setIfInBounds, size_fold_set, ih]
    by_cases hi : start + n = i
    · subst hi
      by_cases ht : start + n < target.size
      · simp [ht]
      · simp [ht]
    · rw [if_neg hi]
      by_cases h : start ≤ i ∧ i < start + n ∧ i < target.size
      · rw [dif_pos h, dif_pos (by omega)]
      · rw [dif_neg h, dif_neg (by omega)]

@[simp] theorem size_overlay (target : Array UInt8) (start : Nat) (source : Array UInt8) :
    (overlay target start source).size = target.size :=
  size_fold_set target start source.size fun i _ => source[i]

theorem getElem?_overlay (target : Array UInt8) (start : Nat) (source : Array UInt8) (i : Nat) :
    (overlay target start source)[i]? =
      if start ≤ i ∧ i < start + source.size ∧ i < target.size then source[i - start]?
      else target[i]? := by
  unfold overlay
  rw [getElem?_fold_set target start source.size fun i _ => source[i]]
  split
  · rw [Array.getElem?_eq_getElem (by omega)]
  · rfl

theorem overlay_zero {target source : Array UInt8} (h : source.size ≤ target.size) :
    overlay target 0 source = source ++ target.extract source.size := by
  apply Array.ext_getElem?
  intro i
  rw [getElem?_overlay, Array.getElem?_append]
  by_cases hi : i < source.size
  · rw [if_pos (by omega), if_pos hi, Nat.sub_zero]
  · rw [if_neg (by omega), if_neg hi, Array.getElem?_extract]
    by_cases ht : i < target.size
    · rw [if_pos (by omega), Nat.add_sub_cancel' (by omega)]
    · rw [if_neg (by omega), Array.getElem?_eq_none (by omega)]

theorem overlay_zero_of_size_eq {target source : Array UInt8} (h : source.size = target.size) :
    overlay target 0 source = source := by
  apply Array.ext_getElem?
  intro i
  rw [getElem?_overlay]
  by_cases hi : i < source.size
  · rw [if_pos (by omega), Nat.sub_zero]
  · rw [if_neg (by omega), Array.getElem?_eq_none (by omega), Array.getElem?_eq_none (by omega)]

end IndexedDisk.Bytes
