import IndexedDisk.Proofs.Free
import IndexedDisk.SectorMap.Words
import Mathlib.Data.List.GetD

/-!
# Sector maps and words

Words pack a map if they have its bits, and no others (`WordMap.Packs`). Every operation on the words
is then the operation on the map: it answers the same and leaves words that pack the map that is left
there.

* `lowestClear_eq_some`, `lowestClear_eq_none`: what the first word that is not full tells.
* `Packs.take_eq`, `Packs.freeCount_eq`: the lowest free sector and the count are found alike on both
  sides.
* `Packs.image_eq`, `packs_ofImage`: the bytes of the words are the image of the map, and bytes stand
  for the same on both sides.
-/

namespace IndexedDisk

namespace WordMap

/-- Bit `i` of words, false past their end. -/
def bitAt (words : List (BitVec 64)) (i : Nat) : Bool := (words.getD (i / 64) 0).getLsbD (i % 64)

/-- The words hold the bits of the map, and nothing behind them. -/
structure Packs (w : WordMap) (m : SectorMap) : Prop where
  size_eq : w.size = m.size
  length_eq : w.words.length = wordCount m.size
  bit_eq : ∀ i, bitAt w.words i = m.bit i

/-! ## Bits of words -/

theorem bitAt_cons_of_lt (x : BitVec 64) (words : List (BitVec 64)) {i : Nat} (hi : i < 64) :
    bitAt (x :: words) i = x.getLsbD i := by
  rw [bitAt, Nat.div_eq_of_lt hi, Nat.mod_eq_of_lt hi]
  rfl

theorem bitAt_cons_add (x : BitVec 64) (words : List (BitVec 64)) (i : Nat) :
    bitAt (x :: words) (64 + i) = bitAt words i := by
  rw [bitAt, Nat.add_div_left _ (by decide), Nat.add_mod_left]
  rfl

theorem bitAt_of_le {words : List (BitVec 64)} {i : Nat} (h : 64 * words.length ≤ i) :
    bitAt words i = false := by
  rw [bitAt, List.getD_eq_default _ _ (by omega)]
  exact BitVec.getLsbD_zero

theorem ext_bitAt {words words' : List (BitVec 64)} (hlen : words.length = words'.length)
    (h : ∀ i, bitAt words i = bitAt words' i) : words = words' := by
  refine List.ext_getElem hlen fun k hk hk' => BitVec.eq_of_getLsbD_eq fun j hj => ?_
  have hbit := h (64 * k + j)
  have hdiv : (64 * k + j) / 64 = k := by omega
  have hmod : (64 * k + j) % 64 = j := by omega
  rwa [bitAt, bitAt, hdiv, hmod, List.getD_eq_getElem _ _ hk, List.getD_eq_getElem _ _ hk'] at hbit

theorem and_twoPow_bne_zero (x : BitVec 64) {k : Nat} (hk : k < 64) :
    (x &&& BitVec.twoPow 64 k != 0) = x.getLsbD k := by
  rw [BitVec.and_twoPow]
  cases x.getLsbD k with
  | false => rfl
  | true =>
    rw [if_pos rfl, bne_iff_ne]
    intro h
    have := congrArg (BitVec.getLsbD · k) h
    simp [hk] at this

theorem bit_eq_bitAt (w : WordMap) (i : Nat) : w.bit i = bitAt w.words i :=
  and_twoPow_bne_zero _ (Nat.mod_lt _ (by decide))

theorem getLsbD_mask (i k : Nat) : (mask i).getLsbD k = decide (k = i % 64) := by
  have hi : i % 64 < 64 := Nat.mod_lt _ (by decide)
  rw [mask, BitVec.getLsbD_twoPow, decide_eq_true hi, Bool.true_and]
  exact decide_eq_decide.mpr eq_comm

/-! ## The ones at the end -/

theorem not_ne_zero {x : BitVec 64} (hx : x ≠ BitVec.allOnes 64) : ~~~ x ≠ 0#64 := by
  intro h
  rw [← BitVec.not_not (b := x), h] at hx
  exact hx rfl

theorem trailingOnes_lt {x : BitVec 64} (hx : x ≠ BitVec.allOnes 64) : trailingOnes x < 64 := by
  have := BitVec.lt_def.mp (BitVec.ctz_lt_iff_ne_zero.mpr (not_ne_zero hx))
  simpa [trailingOnes] using this

theorem getLsbD_trailingOnes {x : BitVec 64} (hx : x ≠ BitVec.allOnes 64) :
    x.getLsbD (trailingOnes x) = false := by
  have hbit := BitVec.getLsbD_true_ctz_of_ne_zero (not_ne_zero hx)
  rw [BitVec.getLsbD_not] at hbit
  rw [trailingOnes]
  simpa using (Bool.and_eq_true_iff.mp hbit).2

theorem getLsbD_of_lt_trailingOnes {x : BitVec 64} {k : Nat} (hk : k < trailingOnes x)
    (hlt : k < 64) : x.getLsbD k = true := by
  have hbit := BitVec.getLsbD_false_of_lt_ctz hk
  rw [BitVec.getLsbD_not] at hbit
  simpa [hlt] using hbit

/-! ## The lowest clear bit -/

theorem lowestClear_eq_some {words : List (BitVec 64)} {i : Nat} (h : lowestClear words = some i) :
    i < 64 * words.length ∧ bitAt words i = false ∧ ∀ j < i, bitAt words j = true := by
  induction words generalizing i with
  | nil => cases h
  | cons x words ih =>
    rw [lowestClear] at h
    rw [List.length_cons]
    split at h
    · rename_i hfull
      obtain ⟨k, hk, rfl⟩ := Option.map_eq_some_iff.mp h
      obtain ⟨hlt, hclear, hset⟩ := ih hk
      refine ⟨by omega, (bitAt_cons_add x words k).trans hclear, fun j hj => ?_⟩
      rcases Nat.lt_or_ge j 64 with hj64 | hj64
      · rw [bitAt_cons_of_lt x words hj64, hfull, BitVec.getLsbD_allOnes, decide_eq_true hj64]
      · obtain ⟨j, rfl⟩ := Nat.exists_eq_add_of_le hj64
        rw [bitAt_cons_add]
        exact hset j (by omega)
    · rename_i hfull
      cases h
      have hlt := trailingOnes_lt hfull
      refine ⟨by omega, ?_, fun j hj => ?_⟩
      · rw [bitAt_cons_of_lt x words hlt]
        exact getLsbD_trailingOnes hfull
      · rw [bitAt_cons_of_lt x words (by omega)]
        exact getLsbD_of_lt_trailingOnes hj (by omega)

theorem lowestClear_eq_none {words : List (BitVec 64)} (h : lowestClear words = none) :
    ∀ i < 64 * words.length, bitAt words i = true := by
  induction words with
  | nil => exact fun i hi => absurd hi (by simp)
  | cons x words ih =>
    rw [lowestClear] at h
    split at h
    · rename_i hfull
      intro i hi
      rw [List.length_cons] at hi
      rcases Nat.lt_or_ge i 64 with hi64 | hi64
      · rw [bitAt_cons_of_lt x words hi64, hfull, BitVec.getLsbD_allOnes, decide_eq_true hi64]
      · obtain ⟨i, rfl⟩ := Nat.exists_eq_add_of_le hi64
        rw [bitAt_cons_add]
        exact ih (Option.map_eq_none_iff.mp h) i (by omega)
    · cases h

/-! ## Counting ones -/

theorem cpopNatRec_eq_countP (x : BitVec 64) (k : Nat) :
    x.cpopNatRec k 0 = (List.range k).countP x.getLsbD := by
  induction k with
  | zero => rfl
  | succ k ih =>
    rw [BitVec.cpopNatRec_succ, BitVec.cpopNatRec_add, ih, List.range_succ, List.countP_append]
    cases hx : x.getLsbD k <;> simp [hx]

theorem foldr_cpop_eq_countP (words : List (BitVec 64)) :
    words.foldr (fun x n => x.cpop.toNat + n) 0
      = (List.range (64 * words.length)).countP (bitAt words) := by
  induction words with
  | nil => rfl
  | cons x words ih =>
    have hfirst : (List.range 64).countP (bitAt (x :: words)) = (List.range 64).countP x.getLsbD :=
      List.countP_congr fun i hi => by rw [bitAt_cons_of_lt x words (List.mem_range.mp hi)]
    have hrest : bitAt (x :: words) ∘ (64 + ·) = bitAt words :=
      funext fun i => bitAt_cons_add x words i
    rw [List.foldr_cons, ih, BitVec.toNat_cpop, cpopNatRec_eq_countP, List.length_cons,
      Nat.mul_succ, Nat.add_comm (64 * _), List.range_add, List.countP_append, hfirst,
      List.countP_map, hrest]

/-! ## Maps in words -/

theorem packs_empty (size : Nat) :
    Packs ⟨size, List.replicate (wordCount size) 0⟩ (SectorMap.empty size) where
  size_eq := rfl
  length_eq := List.length_replicate
  bit_eq i := by
    rw [SectorMap.bit_empty, bitAt, List.getD_eq_getElem?_getD, List.getElem?_replicate]
    split <;> exact BitVec.getLsbD_zero

theorem le_wordCount (size : Nat) : 8 * SectorMap.imageSize size ≤ 64 * wordCount size := by
  rw [SectorMap.imageSize, wordCount]
  omega

namespace Packs

variable {w w' : WordMap} {m m' : SectorMap}

theorem eq_iff (hw : Packs w m) (hw' : Packs w' m') : w = w' ↔ m = m' := by
  constructor
  · rintro rfl
    exact SectorMap.ext_bit (hw.size_eq.symm.trans hw'.size_eq) fun i =>
      (hw.bit_eq i).symm.trans (hw'.bit_eq i)
  · rintro rfl
    obtain ⟨size, words⟩ := w
    obtain ⟨size', words'⟩ := w'
    have hwords : words = words' := ext_bitAt (hw.length_eq.trans hw'.length_eq.symm) fun i =>
      (hw.bit_eq i).trans (hw'.bit_eq i).symm
    have hsize : size = size' := hw.size_eq.trans hw'.size_eq.symm
    rw [hwords, hsize]

theorem amend (hw : Packs w m) {i : Nat} (hi : i < m.size) {f : BitVec 64 → BitVec 64} {b : Bool}
    (hf : ∀ x, ∀ k < 64, (f x).getLsbD k = if k = i % 64 then b else x.getLsbD k) :
    Packs (w.amend i f) (m.setBit i b) where
  size_eq := hw.size_eq
  length_eq := (List.length_modify ..).trans hw.length_eq
  bit_eq j := by
    have hword : i / 64 < w.words.length := by
      rw [hw.length_eq, wordCount]
      omega
    -- other bits are in another word, or at another place in this one
    have hj : j = i ↔ i / 64 = j / 64 ∧ j % 64 = i % 64 := by omega
    rw [SectorMap.bit_setBit m hi, ← hw.bit_eq j, bitAt, bitAt, WordMap.amend,
      List.getD_eq_getElem?_getD, List.getElem?_modify, List.getD_eq_getElem?_getD]
    by_cases hdiv : i / 64 = j / 64
    · rw [List.getElem?_eq_getElem (hdiv ▸ hword)]
      simp only [hdiv, if_true, Option.map_eq_map, Option.map_some, Option.getD_some]
      rw [hf _ _ (Nat.mod_lt _ (by decide))]
      exact if_congr (hj.trans (and_iff_right hdiv)).symm rfl rfl
    · simp only [hdiv, if_false, id_map']
      rw [if_neg fun h => hdiv (hj.mp h).1]

theorem amend_or (hw : Packs w m) {i : Nat} (hi : i < m.size) :
    Packs (w.amend i (· ||| mask i)) (m.setBit i true) := by
  refine hw.amend hi fun x k hk => ?_
  rw [BitVec.getLsbD_or, getLsbD_mask]
  by_cases h : k = i % 64 <;> simp [h]

theorem amend_and_not (hw : Packs w m) {i : Nat} (hi : i < m.size) :
    Packs (w.amend i (· &&& ~~~ mask i)) (m.setBit i false) := by
  refine hw.amend hi fun x k hk => ?_
  rw [BitVec.getLsbD_and, BitVec.getLsbD_not, getLsbD_mask]
  by_cases h : k = i % 64 <;> simp [h, hk]

theorem isMarked_eq (hw : Packs w m) (i : Nat) : w.isMarked i = m.isMarked i := by
  rw [isMarked, SectorMap.isMarked, hw.size_eq, bit_eq_bitAt, hw.bit_eq]

theorem marked_eq (hw : Packs w m) : w.marked = m.marked := by
  have hbit : w.bit = m.bit := funext fun i => (bit_eq_bitAt w i).trans (hw.bit_eq i)
  rw [marked, SectorMap.marked, hw.size_eq, hbit]

theorem take_eq (hw : Packs w m) :
    w.take = m.take.map fun taken => (taken.1, w.amend taken.1 (· ||| mask taken.1)) := by
  have hlen := le_wordCount m.size
  rw [← hw.length_eq, SectorMap.imageSize] at hlen
  rw [take]
  split
  · rename_i i hi
    obtain ⟨_, hclear, hset⟩ := lowestClear_eq_some hi
    rw [hw.bit_eq] at hclear
    have hset : ∀ j < i, m.bit j = true := fun j hj => (hw.bit_eq j).symm.trans (hset j hj)
    rw [hw.size_eq]
    split
    · rename_i hlt
      rw [(SectorMap.take_eq_some_iff m _ i).mpr ⟨hlt, hclear, hset, rfl⟩]
      rfl
    · -- the lowest clear bit stands for no sector, and those of all sectors are below it
      rename_i hge
      rw [(SectorMap.take_eq_none_iff m).mpr fun j hj => hset j (by omega)]
      rfl
  · rename_i hnone
    rw [(SectorMap.take_eq_none_iff m).mpr fun j hj =>
      (hw.bit_eq j).symm.trans (lowestClear_eq_none hnone j (by omega))]
    rfl

theorem setCount_eq (hw : Packs w m) : w.setCount = m.setCount := by
  -- the words reach further than the bits of the map, and nothing is set there
  obtain ⟨d, hd⟩ := Nat.exists_eq_add_of_le (le_wordCount m.size)
  have hrest : (List.range d).countP (m.bit ∘ (8 * SectorMap.imageSize m.size + ·)) = 0 := by
    rw [List.countP_eq_zero]
    intro j _
    simp [SectorMap.bit_of_le (Nat.le_add_right (8 * SectorMap.imageSize m.size) j)]
  rw [setCount, foldr_cpop_eq_countP, hw.length_eq, hd, funext hw.bit_eq, List.range_add,
    List.countP_append, List.countP_map, hrest, SectorMap.setCount_eq_countP]
  rfl

theorem freeCount_eq (hw : Packs w m) : w.freeCount = m.freeCount := by
  rw [freeCount, SectorMap.freeCount, hw.setCount_eq, hw.size_eq]

end Packs

/-! ## Images -/

theorem length_bytesOf (x : BitVec 64) : (bytesOf x).length = 8 := by simp [bytesOf]

theorem length_flatMap_bytesOf (words : List (BitVec 64)) :
    (words.flatMap bytesOf).length = 8 * words.length := by
  induction words with
  | nil => rfl
  | cons x words ih =>
    rw [List.flatMap_cons, List.length_append, length_bytesOf, ih, List.length_cons]
    omega

theorem testBit_flatMap_bytesOf (words : List (BitVec 64)) (j : Nat) {k : Nat} (hk : k < 8) :
    ((words.flatMap bytesOf).getD j 0).toNat.testBit k = bitAt words (8 * j + k) := by
  induction words generalizing j with
  | nil =>
    rw [bitAt_of_le (by simp)]
    simp
  | cons x words ih =>
    rw [List.flatMap_cons, List.getD_eq_getElem?_getD]
    rcases Nat.lt_or_ge j 8 with hj | hj
    · rw [List.getElem?_append_left (by rw [length_bytesOf]; exact hj),
        bitAt_cons_of_lt x words (by omega)]
      have hbyte : ((x >>> (8 * j)).setWidth 8).getLsbD k = x.getLsbD (8 * j + k) := by
        rw [BitVec.getLsbD_setWidth, BitVec.getLsbD_ushiftRight, decide_eq_true hk, Bool.true_and]
      rw [← hbyte, bytesOf, List.getElem?_map, List.getElem?_range hj]
      rfl
    · obtain ⟨j, rfl⟩ := Nat.exists_eq_add_of_le hj
      have hshift : 8 * (8 + j) + k = 64 + (8 * j + k) := by omega
      rw [List.getElem?_append_right (by rw [length_bytesOf]; exact hj), length_bytesOf,
        Nat.add_sub_cancel_left, hshift, bitAt_cons_add, ← List.getD_eq_getElem?_getD, ih]

theorem getLsbD_ofBytes (bytes : List UInt8) {k : Nat} (hk : k < 64) :
    (ofBytes bytes).getLsbD k = (bytes.getD (k / 8) 0).toNat.testBit (k % 8) := by
  induction bytes generalizing k with
  | nil => simp [ofBytes]
  | cons b bytes ih =>
    rw [ofBytes, BitVec.getLsbD_or, BitVec.getLsbD_setWidth, BitVec.getLsbD_shiftLeft,
      decide_eq_true hk, Bool.true_and, Bool.true_and]
    rcases Nat.lt_or_ge k 8 with h8 | h8
    · rw [decide_eq_true h8, Nat.div_eq_of_lt h8, Nat.mod_eq_of_lt h8]
      simp [BitVec.getLsbD]
    · obtain ⟨k, rfl⟩ := Nat.exists_eq_add_of_le h8
      rw [BitVec.getLsbD_of_ge _ _ h8, Nat.add_sub_cancel_left, ih (by omega),
        Nat.add_div_left _ (by decide), Nat.add_mod_left]
      simp

theorem Packs.image_eq {w : WordMap} {m : SectorMap} (hw : Packs w m) :
    w.image = m.image.toList := by
  have hlen := le_wordCount m.size
  have hcut : SectorMap.imageSize m.size ≤ (w.words.flatMap bytesOf).length := by
    rw [length_flatMap_bytesOf, hw.length_eq]
    omega
  rw [image, hw.size_eq]
  refine List.ext_getElem ?_ fun j h₁ h₂ => ?_
  · rw [List.length_take, Nat.min_eq_left hcut, Array.length_toList, SectorMap.size_image]
  rw [List.length_take] at h₁
  have hj : j < (w.words.flatMap bytesOf).length := by omega
  rw [Array.length_toList] at h₂
  have hleft : ∀ k < 8, (w.words.flatMap bytesOf)[j].toNat.testBit k = m.bit (8 * j + k) := by
    intro k hk
    rw [← hw.bit_eq, ← testBit_flatMap_bytesOf w.words j hk, List.getD_eq_getElem]
  have hright : ∀ k < 8, m.image[j].toNat.testBit k = m.bit (8 * j + k) := by
    intro k hk
    simp only [SectorMap.image, Array.getElem_ofFn]
    exact SectorMap.testBit_byteOfBits _ hk
  rw [List.getElem_take, Array.getElem_toList]
  exact UInt8.toBitVec_inj.mp
    (BitVec.eq_of_getLsbD_eq fun k hk => (hleft k hk).trans (hright k hk).symm)

theorem bitAt_ofImage (size : Nat) (bytes : List UInt8) {i : Nat} (hi : i < 64 * wordCount size) :
    bitAt (ofImage size bytes).words i = (bytes.getD (i / 8) 0).toNat.testBit (i % 8) := by
  have hword : i / 64 < wordCount size := by omega
  have hbyte : i % 64 / 8 < 8 := by omega
  have hplace : 8 * (i / 64) + i % 64 / 8 = i / 8 := by omega
  have hmod : i % 64 % 8 = i % 8 := by omega
  rw [bitAt, ofImage, List.getD_eq_getElem?_getD, List.getElem?_map, List.getElem?_range hword,
    Option.map_some, Option.getD_some, getLsbD_ofBytes _ (Nat.mod_lt _ (by decide)), hmod,
    List.getD_eq_getElem?_getD, List.getElem?_take_of_lt hbyte, List.getElem?_drop, hplace,
    List.getD_eq_getElem?_getD]

theorem packs_ofImage {size : Nat} {bytes : Array UInt8}
    (h : bytes.size ≤ SectorMap.imageSize size) :
    Packs (ofImage size bytes.toList) (SectorMap.ofImage size bytes) where
  size_eq := rfl
  length_eq := by simp [ofImage]
  bit_eq i := by
    have hlen := le_wordCount size
    have hget : bytes.toList.getD (i / 8) 0 = bytes.getD (i / 8) 0 := by
      rw [List.getD_eq_getElem?_getD, Array.getElem?_toList, Array.getD_eq_getD_getElem?]
    rcases Nat.lt_or_ge i (8 * SectorMap.imageSize size) with hi | hi
    · rw [SectorMap.bit_ofImage _ _ hi, bitAt_ofImage _ _ (by omega), hget]
    · rw [SectorMap.bit_of_le (m := .ofImage size bytes) hi]
      rcases Nat.lt_or_ge i (64 * wordCount size) with hword | hword
      · rw [bitAt_ofImage _ _ hword, hget, Array.getD_eq_getD_getElem?,
          Array.getElem?_eq_none (by omega)]
        simp
      · exact bitAt_of_le (by simpa [ofImage] using hword)

end WordMap

end IndexedDisk
