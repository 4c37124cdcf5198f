import IndexedDisk.SectorMap.Lemmas

/-!
# Free sectors

The free sectors of a map as a list, the lowest first, and what becomes of it when sectors are
taken and given back.

* `take_eq`, `free_setBit`: `take` goes down the list.
* `freeCount_eq_ite`: the count of free sectors is its length less the number of set bits past the
  last sector, so that it is right if there is none (`freeCount_eq`) and never too large
  (`le_length_free`).
* `releaseAll_eq`: sectors in use, none of them named twice, can all be given back.
-/

namespace IndexedDisk.SectorMap

/-- The free sectors, in increasing order. -/
def free (m : SectorMap) : List Nat := (List.range m.size).filter (! m.bit ·)

/-- The map with the bits of the given sectors changed. -/
def setAll (m : SectorMap) (sectors : List Nat) (b : Bool) : SectorMap :=
  sectors.foldl (fun m i => m.setBit i b) m

/-- No bit past the last sector is set. -/
def Tidy (m : SectorMap) : Prop := ∀ i, m.size ≤ i → m.bit i = false

/-- The number of bits past the last sector that are set. -/
def strays (m : SectorMap) : Nat :=
  (List.range (8 * imageSize m.size - m.size)).countP fun j => m.bit (m.size + j)

variable {m : SectorMap}

theorem mem_free {i : Nat} : i ∈ m.free ↔ i < m.size ∧ m.bit i = false := by
  simp [free]

theorem sorted_free (m : SectorMap) : m.free.Pairwise (· < ·) :=
  List.Pairwise.filter _ List.pairwise_lt_range

theorem nodup_free (m : SectorMap) : m.free.Nodup :=
  (sorted_free m).imp Nat.ne_of_lt

theorem lt_of_mem_free {i : Nat} (h : i ∈ m.free) : i < m.size := (mem_free.mp h).1

theorem free_eq_nil_iff : m.free = [] ↔ ∀ i < m.size, m.bit i = true := by
  simp [free, List.filter_eq_nil_iff]

/-! ## Taking the lowest -/

theorem take_eq_none_of_free (h : m.free = []) : m.take = none :=
  (take_eq_none_iff m).mpr (free_eq_nil_iff.mp h)

theorem take_eq {i : Nat} {rest : List Nat} (h : m.free = i :: rest) :
    m.take = some (i, m.setBit i true) := by
  have hi : i ∈ m.free := h ▸ List.mem_cons_self ..
  obtain ⟨hlt, hbit⟩ := mem_free.mp hi
  refine (take_eq_some_iff m _ i).mpr ⟨hlt, hbit, fun j hj => ?_, rfl⟩
  have hsorted := sorted_free m
  rw [h] at hsorted
  refine eq_true_of_ne_false fun hfree => ?_
  have hj' : j ∈ m.free := mem_free.mpr ⟨by omega, hfree⟩
  rw [h] at hj'
  rcases List.mem_cons.mp hj' with rfl | hrest
  · omega
  · have := (List.pairwise_cons.mp hsorted).1 j hrest
    omega

theorem free_setBit {i : Nat} {rest : List Nat} (h : m.free = i :: rest) :
    (m.setBit i true).free = rest := by
  have hi : i ∈ m.free := h ▸ List.mem_cons_self ..
  have hnodup := nodup_free m
  have hfilter : (m.setBit i true).free = m.free.filter (· ≠ i) := by
    unfold free
    rw [List.filter_filter, size_setBit]
    refine List.filter_congr fun j _ => ?_
    rw [bit_setBit m (lt_of_mem_free hi)]
    by_cases hj : j = i <;> simp [hj]
  rw [h] at hnodup
  rw [hfilter, h, List.filter_cons_of_neg (by simp), List.filter_eq_self]
  intro j hj
  have hne : j ≠ i := fun heq => (List.nodup_cons.mp hnodup).1 (heq ▸ hj)
  simpa using hne

/-! ## Changing many bits -/

@[simp] theorem size_setAll (m : SectorMap) (sectors : List Nat) (b : Bool) :
    (m.setAll sectors b).size = m.size := by
  induction sectors generalizing m with
  | nil => rfl
  | cons i sectors ih => exact ih (m.setBit i b)

theorem setAll_append (m : SectorMap) (l l' : List Nat) (b : Bool) :
    m.setAll (l ++ l') b = (m.setAll l b).setAll l' b :=
  List.foldl_append ..

theorem bit_setAll {sectors : List Nat} (h : ∀ i ∈ sectors, i < m.size) (b : Bool) (j : Nat) :
    (m.setAll sectors b).bit j = if j ∈ sectors then b else m.bit j := by
  induction sectors generalizing m with
  | nil => rfl
  | cons i sectors ih =>
    have hi : i < m.size := h i (List.mem_cons_self ..)
    have hrest : ∀ k ∈ sectors, k < (m.setBit i b).size := by
      intro k hk
      rw [size_setBit]
      exact h k (List.mem_cons_of_mem _ hk)
    change ((m.setBit i b).setAll sectors b).bit j = _
    rw [ih hrest, bit_setBit m hi]
    by_cases hj : j = i <;> by_cases hmem : j ∈ sectors <;> simp [hj, hmem]

theorem tidy_setAll (hm : m.Tidy) {sectors : List Nat} (h : ∀ i ∈ sectors, i < m.size) (b : Bool) :
    (m.setAll sectors b).Tidy := by
  intro i hi
  rw [size_setAll] at hi
  rw [bit_setAll h, if_neg fun hmem => Nat.not_lt.mpr hi (h i hmem)]
  exact hm i hi

theorem free_setAll (m : SectorMap) (n : Nat) :
    (m.setAll (m.free.take n) true).free = m.free.drop n := by
  induction n generalizing m with
  | zero => rfl
  | succ n ih =>
    cases h : m.free with
    | nil => exact h
    | cons i rest =>
      have := ih (m.setBit i true)
      rw [free_setBit h] at this
      exact this

theorem releaseAll_eq {sectors : List Nat} (hnodup : sectors.Nodup)
    (h : ∀ i ∈ sectors, i < m.size ∧ m.bit i = true) :
    m.releaseAll sectors = .ok (m.setAll sectors false) := by
  induction sectors generalizing m with
  | nil => rfl
  | cons i sectors ih =>
    obtain ⟨hnot, hnodup⟩ := List.nodup_cons.mp hnodup
    obtain ⟨hi, hbit⟩ := h i (List.mem_cons_self ..)
    have hrelease : m.release i = .ok (m.setBit i false) := by
      rw [release, if_pos hi, if_pos hbit]
    have hrest : ∀ j ∈ sectors, j < (m.setBit i false).size ∧ (m.setBit i false).bit j = true := by
      intro j hj
      obtain ⟨hlt, hset⟩ := h j (List.mem_cons_of_mem _ hj)
      refine ⟨hlt, ?_⟩
      have hne : j ≠ i := fun heq => hnot (heq ▸ hj)
      rw [bit_setBit m hi, if_neg hne, hset]
    change (m.release i >>= fun m => m.releaseAll sectors) = _
    rw [hrelease]
    exact ih hnodup hrest

theorem setAll_setAll {sectors : List Nat} (h : ∀ i ∈ sectors, i ∈ m.free) {sectors' : List Nat}
    (hmem : ∀ i, i ∈ sectors' ↔ i ∈ sectors) :
    (m.setAll sectors true).setAll sectors' false = m := by
  have hlt : ∀ i ∈ sectors, i < m.size := fun i hi => lt_of_mem_free (h i hi)
  have hlt' : ∀ i ∈ sectors', i < (m.setAll sectors true).size := by
    intro i hi
    rw [size_setAll]
    exact hlt i ((hmem i).mp hi)
  refine ext_bit (by simp) fun i => ?_
  rw [bit_setAll hlt', bit_setAll hlt]
  by_cases hi : i ∈ sectors
  · rw [if_pos ((hmem i).mpr hi), (mem_free.mp (h i hi)).2]
  · rw [if_neg fun hc => hi ((hmem i).mp hc), if_neg hi]

/-! ## Counting -/

theorem setCount_eq_countP (m : SectorMap) :
    m.setCount = (List.range (8 * imageSize m.size)).countP m.bit := by
  have hbits : m.bits.toList = (List.range (8 * imageSize m.size)).map m.bit := by
    apply List.ext_getElem (by simp [m.size_bits])
    intro i h _
    rw [List.getElem_map, List.getElem_range, bit_eq_getElem m (by simpa using h)]
    rfl
  have hid : ((· == true) : Bool → Bool) = id := funext fun b => beq_true b
  rw [setCount, ← Array.count_toList, hbits, List.count, hid, List.countP_map]
  rfl

/-- Each sector is free or counted, and so is each bit that is set past the last sector. -/
theorem setCount_add_length_free (m : SectorMap) :
    m.setCount + m.free.length = m.size + m.strays := by
  have hsplit : List.range (8 * imageSize m.size) = List.range m.size
      ++ (List.range (8 * imageSize m.size - m.size)).map (m.size + ·) := by
    rw [← List.range_add]
    congr 1
    rw [imageSize]
    omega
  have hcount : m.setCount = List.countP m.bit (List.range m.size) + m.strays := by
    rw [setCount_eq_countP, hsplit, List.countP_append, List.countP_map]
    rfl
  have hsum := List.length_eq_countP_add_countP (p := m.bit) (l := List.range m.size)
  simp only [List.length_range, Bool.not_eq_true, Bool.decide_eq_false] at hsum
  rw [hcount, free, ← List.countP_eq_length_filter]
  omega

theorem freeCount_eq_ite (m : SectorMap) : m.freeCount =
    if m.strays ≤ m.free.length then .ok (m.free.length - m.strays) else .error .arithmetic := by
  have hsum := setCount_add_length_free m
  rw [freeCount]
  by_cases h : m.strays ≤ m.free.length
  · rw [if_pos h, if_pos (by omega)]
    congr 1
    omega
  · rw [if_neg h, if_neg (by omega)]

theorem strays_eq_zero_iff : m.strays = 0 ↔ m.Tidy := by
  rw [strays, List.countP_eq_zero]
  constructor
  · intro h i hi
    obtain ⟨j, rfl⟩ := Nat.exists_eq_add_of_le hi
    by_cases hj : m.size + j < 8 * imageSize m.size
    · simpa using h j (List.mem_range.mpr (by omega))
    · exact bit_of_le (Nat.le_of_not_lt hj)
  · intro h j _
    simp [h _ (Nat.le_add_right m.size j)]

theorem freeCount_eq (hm : m.Tidy) : m.freeCount = .ok m.free.length := by
  rw [freeCount_eq_ite, strays_eq_zero_iff.mpr hm]
  rfl

theorem le_length_free {n : Nat} (h : m.freeCount = .ok n) : n ≤ m.free.length := by
  rw [freeCount_eq_ite] at h
  split at h
  · cases h
    exact Nat.sub_le ..
  · cases h

end IndexedDisk.SectorMap
