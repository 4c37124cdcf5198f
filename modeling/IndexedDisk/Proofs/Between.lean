import IndexedDisk.Proofs.Frame

/-!
# Media that are half written

Sectors are written one at a time. If each sector of a tree is what it is on one medium or what it
is on another (`Between`), then so is each slot of its directories and each bit of its sector map,
for none of these lies in two sectors. Where the two media differ in one slot of one directory, the
directories are those of the one or those of the other.
-/

namespace IndexedDisk

theorem Directory.getElem?_ofImage (size : Nat) (bytes : Array UInt8) (j : Nat) :
    (ofImage size bytes).slots[j]? = if j < size then
      some (Entry.ofBytes (Vector.ofFn fun x => bytes.getD (entrySize * j + x.val) 0))
      else none := by
  simp only [ofImage, Array.getElem?_ofFn]
  split <;> rfl

namespace Tree

seal table

variable {m m₁ m' : Medium} {count : Nat} {o : Owner} {s d : Nat}

/-! ## Between two media -/

/-- Each sector that the tree on `m` owns is what it is on `m`, or what it is on `m₁`. -/
def Between (m m₁ m' : Medium) : Prop :=
  ∀ i o r, Owns m o r i → m'.get i = m.get i ∨ m'.get i = m₁.get i

/-- Each bit of the sector map is what it is on `m`, or what it is on `m₁`. -/
def Mixed (m m₁ m' : Medium) (count : Nat) : Prop :=
  ∀ i, (bitmap m' count).bit i = (bitmap m count).bit i ∨
    (bitmap m' count).bit i = (bitmap m₁ count).bit i

/-- The directories of the tree on `m` are on `m'` what they are on `m₁`. -/
def TablesOf (m m₁ m' : Medium) : Prop := ∀ d, Reached m d → table m' d = table m₁ d

namespace Between

variable (h : Between m m₁ m') (hc : Consistent m count) (h₁ : Framed m m₁)
include h h₁

theorem framed : Framed m m' := by
  intro o s hs
  refine ⟨?_, fun i hi => ?_⟩
  · rcases h s o _ (owns_header hs) with heq | heq
    · exact heq
    · exact heq.trans (h₁ o s hs).1
  · obtain ⟨k, hk⟩ := owns_index hs hi
    rcases h i o _ hk with heq | heq
    · exact heq
    · exact heq.trans ((h₁ o s hs).2 i hi)

include hc

theorem getD_contents_cases (hs : Names m o s) {k : Nat} (hk : k < (Header.stored m s).sectors) :
    (∀ x, x / sectorSize = k → ((Header.stored m' s).contents m').getD x 0
      = ((Header.stored m s).contents m).getD x 0) ∨
    ∀ x, x / sectorSize = k → ((Header.stored m' s).contents m').getD x 0
      = ((Header.stored m₁ s).contents m₁).getD x 0 := by
  have hframed := h.framed h₁
  obtain ⟨j, hj⟩ := owns_data hs ((hc.intact o s hs).sectorAt_mem hk)
  rcases h _ o _ hj with heq | heq
  · left
    rintro x rfl
    exact hframed.getD_contents_eq (.refl m) hs heq
  · right
    rintro x rfl
    exact hframed.getD_contents_eq h₁ hs heq

theorem slot_cases (hd : Reached m d) (j : Nat) :
    (table m' d).slots[j]? = (table m d).slots[j]? ∨
      (table m' d).slots[j]? = (table m₁ d).slots[j]? := by
  obtain ⟨o, -, ho⟩ := exists_names hd
  by_cases hj : j < directorySlots
  · have hk : (entrySize * j) / sectorSize < (Header.stored m d).sectors := by
      refine (hc.intact o d ho).lt_sectors ?_
      rw [hc.directory_length d hd]
      simp only [directorySlots] at hj
      simp only [directoryFileSize, directorySlots, entrySize]
      omega
    -- four slots lie in a sector, so that no slot lies in two of them
    have hsector (x : Fin 32) : (entrySize * j + x.val) / sectorSize
        = (entrySize * j) / sectorSize := by
      simp only [entrySize, sectorSize]
      omega
    simp only [table, Directory.held, Directory.getElem?_ofImage, if_pos hj]
    refine (h.getD_contents_cases hc h₁ ho hk).imp (fun heq => ?_) fun heq => ?_
    · simp only [heq _ (hsector _)]
    · simp only [heq _ (hsector _)]
  · left
    simp only [table, Directory.held, Directory.getElem?_ofImage, if_neg hj]

theorem mixed : Mixed m m₁ m' count := by
  intro i
  by_cases hi : i < 8 * SectorMap.imageSize count
  · have hk : i / 8 / sectorSize < (Header.stored m (Word.wide mapSector)).sectors := by
      refine (hc.intact .map _ .map).lt_sectors ?_
      rw [hc.map_length]
      omega
    simp only [bitmap, SectorMap.held, SectorMap.bit_ofImage _ _ hi]
    exact (h.getD_contents_cases hc h₁ .map hk).imp (fun heq => by rw [heq _ rfl])
      fun heq => by rw [heq _ rfl]
  · left
    have hbit (m : Medium) : (bitmap m count).bit i = false :=
      SectorMap.bit_of_le (Nat.le_of_not_lt (by rwa [size_bitmap]))
    rw [hbit, hbit]

/-- If the two media differ in one slot, the directories are those of one medium. -/
theorem tables_cases {p slot : Nat} (hone : ∀ d, Reached m d → ∀ j, ¬ (d = p ∧ j = slot) →
      (table m₁ d).slots[j]? = (table m d).slots[j]?) : TablesOf m m m' ∨ TablesOf m m₁ m' := by
  have hext {d d' : Directory} (h : ∀ j : Nat, d.slots[j]? = d'.slots[j]?) : d = d' :=
    congrArg Directory.mk (Array.ext_getElem? h)
  by_cases hslot : Reached m p → (table m' p).slots[slot]? = (table m p).slots[slot]?
  · left
    refine fun d hd => hext fun j => ?_
    by_cases hj : d = p ∧ j = slot
    · obtain ⟨rfl, rfl⟩ := hj
      exact hslot hd
    · exact (h.slot_cases hc h₁ hd j).elim id fun heq => heq.trans (hone d hd j hj)
  · right
    obtain ⟨hp, hne⟩ := Classical.not_imp.mp hslot
    refine fun d hd => hext fun j => ?_
    by_cases hj : d = p ∧ j = slot
    · obtain ⟨rfl, rfl⟩ := hj
      exact (h.slot_cases hc h₁ hd j).resolve_left hne
    · exact (h.slot_cases hc h₁ hd j).elim (fun heq => heq.trans (hone d hd j hj).symm) id

end Between

end Tree

end IndexedDisk
