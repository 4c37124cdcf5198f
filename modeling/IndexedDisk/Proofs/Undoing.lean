import IndexedDisk.Proofs.Placement
import IndexedDisk.Proofs.Refusing

/-!
# Allocations that fail

A file that is too large or finds no room is refused before a sector is drawn. After that only the
disk can fail, at any of the blocks that are written while sectors are still being drawn. What was
drawn by then is given back: it holds each sector once and nothing that was not free, so that giving
it back never finds the map in disagreement. None of this asks how many sectors the map has. Only
where the blocks are written depends on it, since a block goes where the pointer to it leads.

* `Supply.Fills`: the blocks are written to sectors that were free.
* `failed_allocations_are_undone`: what is left of an allocation that fails.
-/

namespace IndexedDisk

/-- Only sectors have changed to which the pointers to `sectors` lead. -/
structure Disk.ChangedIn (sectors : List Nat) (disk disk' : Disk) : Prop where
  count_eq : disk'.count = disk.count
  size_le : disk.medium.size ≤ disk'.medium.size
  get_eq : ∀ i, (∀ s ∈ sectors, Word.wide (Word.ofNat s) ≠ i) →
    disk'.medium.get i = disk.medium.get i

namespace Disk.ChangedIn

variable {sectors : List Nat} {disk disk' disk'' : Disk}

theorem refl (sectors : List Nat) (disk : Disk) : ChangedIn sectors disk disk :=
  ⟨rfl, Nat.le_refl _, fun _ _ => rfl⟩

theorem trans (h : ChangedIn sectors disk disk') (h' : ChangedIn sectors disk' disk'') :
    ChangedIn sectors disk disk'' where
  count_eq := h'.count_eq.trans h.count_eq
  size_le := Nat.le_trans h.size_le h'.size_le
  get_eq i hi := (h'.get_eq i hi).trans (h.get_eq i hi)

theorem put {s : Nat} (hs : s ∈ sectors) (m : Medium) (bytes : Sector) (count : Nat)
    (p q : FaultPlan) :
    ChangedIn sectors ⟨m, count, p⟩ ⟨m.put (Word.wide (Word.ofNat s)) bytes, count, q⟩ where
  count_eq := rfl
  size_le := by
    rw [Medium.size_put]
    exact Nat.le_max_left ..
  get_eq i hi := Medium.get_put_of_ne m bytes (hi s hs).symm

/-- Pointers lead to the sectors themselves if the numbers of these are not too large. -/
theorem get_of_not_mem (h : ChangedIn sectors disk disk') (hsmall : ∀ s ∈ sectors, s < 0x80000000)
    {i : Nat} (hi : i ∉ sectors) : disk'.medium.get i = disk.medium.get i :=
  h.get_eq i fun s hs heq => hi (heq ▸ (Word.wide_ofNat (hsmall s hs)).symm ▸ hs)

end Disk.ChangedIn

/-! ## Where blocks are written -/

namespace Supply

/-- The pointer to one of the sectors. -/
def DrawnFrom (sectors : List Nat) (p : Int32) : Prop := ∃ s ∈ sectors, p = Word.ofNat s

/--
Drawing from `sectors`, the request writes to what it has drawn at most, whatever becomes of it. If
it answers, the answer satisfies `Q`.
-/
def Fills {α : Type} (sectors : List Nat) (Q : α → Prop) (act : SupplyM α) : Prop :=
  ∀ disk s, s.map.free ⊆ sectors → match act ⟨disk, s⟩ with
    | .ok a held => Q a ∧ held.value.map.free ⊆ sectors ∧ disk.ChangedIn sectors held.disk
    | .error _ held => disk.ChangedIn sectors held.disk

namespace Fills

variable {α β : Type} {sectors : List Nat} {act : SupplyM α} {Q : α → Prop} {R : β → Prop}

theorem pure {a : α} (h : Q a) : Fills sectors Q (pure a) := fun _ _ hs => ⟨h, hs, .refl ..⟩

theorem refuse (cause : Refusal) : Fills sectors Q (refuse cause : SupplyM α) :=
  fun _ _ _ => .refl ..

theorem bind {f : α → SupplyM β} (h : Fills sectors Q act)
    (hf : ∀ a, Q a → Fills sectors R (f a)) : Fills sectors R (act >>= f) := by
  intro disk s hs
  have hact := h disk s hs
  rw [bind_apply]
  cases hfirst : act ⟨disk, s⟩ with
  | error cause held =>
    rw [hfirst] at hact
    exact hact
  | ok a held =>
    obtain ⟨disk', s'⟩ := held
    rw [hfirst] at hact
    obtain ⟨ha, hs', hchanged⟩ := hact
    have hrest := hf a ha disk' s' hs'
    dsimp only
    cases hsecond : f a ⟨disk', s'⟩ with
    | error cause held =>
      rw [hsecond] at hrest
      exact hchanged.trans hrest
    | ok b held =>
      rw [hsecond] at hrest
      exact ⟨hrest.1, hrest.2.1, hchanged.trans hrest.2.2⟩

theorem draw : Fills sectors (DrawnFrom sectors) Supply.draw := by
  rintro disk ⟨map, drawn⟩ hs
  cases hfree : map.free with
  | nil =>
    simp only [Supply.draw, SectorMap.take_eq_none_of_free hfree]
    exact .refl ..
  | cons i rest =>
    have hsub : i :: rest ⊆ sectors := hfree ▸ hs
    simp only [Supply.draw, SectorMap.take_eq hfree, SectorMap.free_setBit hfree]
    exact ⟨⟨i, hsub (List.mem_cons_self ..), rfl⟩, fun _ hj => hsub (List.mem_cons_of_mem _ hj),
      .refl ..⟩

theorem drawMany (n : Nat) : Fills sectors (fun _ => True) (Supply.drawMany n) := by
  induction n with
  | zero => exact pure trivial
  | succ n ih => exact draw.bind fun _ _ => ih.bind fun _ _ => pure trivial

theorem store (b : IndexBlock) {p : Int32} (hp : DrawnFrom sectors p) :
    Fills sectors (fun _ => True) (liftM (b.store p)) := by
  obtain ⟨i, hi, rfl⟩ := hp
  rintro ⟨m, count, plan⟩ s hs
  simp only [liftM, monadLift, MonadLift.monadLift, IndexBlock.store, Disk.writeSector_apply]
  cases (⟨m, count, plan⟩ : Disk).writeError? (Word.wide (Word.ofNat i)) sectorSize with
  | some e => exact ⟨rfl, Nat.le_refl _, fun _ _ => rfl⟩
  | none =>
    exact ⟨trivial, hs, .put hi m _ count _ _⟩

theorem fillBlock {p : Int32} (hp : DrawnFrom sectors p) (n : Nat) :
    Fills sectors (fun _ => True) (Supply.fillBlock p n) :=
  (drawMany n).bind fun _ _ => store _ hp

theorem fillChildren (size rest named : Nat) :
    Fills sectors (fun _ => True) (Supply.fillChildren size rest named) := by
  fun_induction Supply.fillChildren size rest named with
  | case1 => exact pure trivial
  | case2 => exact refuse _
  | case3 rest named _ _ ih =>
    exact draw.bind fun _ hchild => (fillBlock hchild _).bind fun _ _ =>
      ih.bind fun _ _ => pure trivial

theorem fillSingle (n : Nat) : Fills sectors (fun _ => True) (Supply.fillSingle n) :=
  draw.bind fun _ hblock => (fillBlock hblock _).bind fun _ _ => pure trivial

theorem fillDouble (size n : Nat) : Fills sectors (fun _ => True) (Supply.fillDouble size n) :=
  draw.bind fun _ hblock => (fillChildren size n 0).bind fun _ _ =>
    (store _ hblock).bind fun _ _ => pure trivial

theorem fill (size : Nat) : Fills sectors (fun _ => True) (Supply.fill size) := by
  rw [fill_eq]
  refine (drawMany _).bind fun _ _ => bind (Q := fun _ => True) ?_ fun _ _ =>
    bind (Q := fun _ => True) ?_ fun _ _ => pure trivial
  · split
    · exact pure trivial
    · exact fillSingle _
  · split
    · exact pure trivial
    · exact fillDouble _ _

end Fills

variable {map : SectorMap} {size : Nat} {disk : Disk} {held : Disk.With Supply} {cause : Failure}

/-- What was drawn by a request that fails can be given back. -/
theorem releaseAll_of_fill (h : fill size ⟨disk, map, []⟩ = .error cause held) :
    held.value.map.releaseAll held.value.drawn = .ok map := by
  obtain ⟨n, hn⟩ := Draws.fill size disk ⟨map, []⟩
  rw [h] at hn
  obtain ⟨disk', s⟩ := held
  obtain rfl : s = (⟨map, []⟩ : Supply).after n := hn
  exact releaseAll_after map n

theorem changedIn_of_fill (h : fill size ⟨disk, map, []⟩ = .error cause held) :
    disk.ChangedIn map.free held.disk := by
  have hfills := Fills.fill size disk ⟨map, []⟩ (List.Subset.refl map.free)
  rwa [h] at hfills

end Supply

/-! ## What is left -/

namespace Header

/-- What is left of an allocation of `size` bytes that fails, for each cause that it can have. -/
inductive Undone (disk : Disk) (map : SectorMap) (h : Header) (size : Nat) :
    Failure → Disk.With Holding → Prop
  | tooLarge (hsize : maxFileSize < size) :
    Undone disk map h size (.refused (.fileTooLarge size)) ⟨disk, map, h⟩
  | noSpace (hroom : map.free.length < sectorsFor size + indexBlocksFor (sectorsFor size)) :
    Undone disk map h size (.refused .noSpace) ⟨disk, map, h⟩
  | device (e : DeviceError) {disk' : Disk} (hdisk : disk.ChangedIn map.free disk') :
    Undone disk map h size (.refused (.device e)) ⟨disk', map, empty⟩

variable {map : SectorMap} {size : Nat} {disk : Disk} {h : Header} {cause : Failure}
  {held : Disk.With Holding}

theorem Undone.map_eq (hu : Undone disk map h size cause held) : held.value.map = map := by
  cases hu <;> rfl

theorem Undone.exists_refused (hu : Undone disk map h size cause held) :
    ∃ refusal, cause = .refused refusal := by
  cases hu <;> exact ⟨_, rfl⟩

theorem Undone.changedIn (hu : Undone disk map h size cause held) :
    disk.ChangedIn map.free held.disk := by
  cases hu with
  | tooLarge => exact .refl ..
  | noSpace => exact .refl ..
  | device e hdisk => exact hdisk

theorem undone_of_allocate (htidy : map.Tidy)
    (hact : allocate size ⟨disk, map, h⟩ = .error cause held) :
    Undone disk map h size cause held := by
  have hcount := SectorMap.freeCount_eq htidy
  rw [allocate] at hact
  by_cases hsize : maxFileSize < size
  · rw [if_pos hsize] at hact
    cases hact
    exact .tooLarge hsize
  rw [if_neg hsize, hcount] at hact
  dsimp only at hact
  by_cases hroom : map.free.length < sectorsFor size + indexBlocksFor (sectorsFor size)
  · rw [if_pos hroom] at hact
    cases hact
    exact .noSpace hroom
  rw [if_neg hroom] at hact
  cases hfill : Supply.fill size ⟨disk, map, []⟩ with
  | ok h' held' =>
    rw [hfill] at hact
    cases hact
  | error e held' =>
    obtain ⟨e, rfl⟩ := Supply.device_of_fill (Nat.le_of_not_lt hsize) hcount
      (Nat.le_of_not_lt hroom) hfill
    rw [hfill] at hact
    dsimp only at hact
    rw [Supply.releaseAll_of_fill hfill] at hact
    cases hact
    exact .device e (Supply.changedIn_of_fill hfill)

/--
**A failed allocation is undone.** On a map whose bits past the last one are not set, and on any disk
with any faults, an allocation that fails leaves the map as it was. If the file was too large or
found no room, the header and the disk are as they were as well. The only other cause is the disk:
then the header is the empty one, and the disk differs at most where pointers to free sectors lead,
which is in free sectors if the map has up to `2 ^ 31` of them, so that their numbers fit in
pointers. Once there is room, drawing the sectors fails by the disk alone, never for want of a
sector, and all that was drawn can be given back.
-/
theorem failed_allocations_are_undone (htidy : map.Tidy) (disk : Disk) (h : Header) (size : Nat) :
    (∀ cause held, allocate size ⟨disk, map, h⟩ = .error cause held →
      held.value.map = map ∧ Undone disk map h size cause held ∧
      (map.size ≤ 0x80000000 →
        ∀ i ∉ map.free, held.disk.medium.get i = disk.medium.get i)) ∧
    (size ≤ maxFileSize →
      sectorsFor size + indexBlocksFor (sectorsFor size) ≤ map.free.length →
      ∀ cause held, Supply.fill size ⟨disk, map, []⟩ = .error cause held →
        (∃ e, cause = .refused (.device e)) ∧
        held.value.map.releaseAll held.value.drawn = .ok map) := by
  refine ⟨fun cause held hact => ?_, fun hle hroom cause held hfill => ?_⟩
  · have hundone := undone_of_allocate htidy hact
    refine ⟨hundone.map_eq, hundone, fun hsize i hi => ?_⟩
    exact hundone.changedIn.get_of_not_mem
      (fun s hs => Nat.lt_of_lt_of_le (SectorMap.lt_of_mem_free hs) hsize) hi
  · exact ⟨Supply.device_of_fill hle (SectorMap.freeCount_eq htidy) hroom hfill,
      Supply.releaseAll_of_fill hfill⟩

/-- A disk that takes one write fails when the second block is written, after 61 draws. -/
theorem failed_allocations_are_undone_second : ∃ disk cause held,
    (SectorMap.empty 64).Tidy ∧ allocate 7552 ⟨disk, .empty 64, .empty⟩ = .error cause held ∧
    held.value.map = .empty 64 ∧ Undone disk (.empty 64) .empty 7552 cause held := by
  have htidy : (SectorMap.empty 64).Tidy := fun i _ => SectorMap.bit_empty 64 i
  have hfree : (SectorMap.empty 64).free.length = 64 := by decide
  have hf : Fits 7552 ((SectorMap.empty 64).lowestFor 7552) := fits_lowestFor (by decide)
    (by rw [hfree]; decide) (SectorMap.addressable_of_size_le (by decide) _)
  obtain ⟨m, hm⟩ : ∃ m : Medium, sectorSize * 64 ≤ m.size :=
    ⟨.replicate (sectorSize * 64) 0, Nat.le_of_eq (Medium.size_replicate ..).symm⟩
  have hlength : (fillScript (sectorsFor 7552) ((SectorMap.empty 64).lowestFor 7552)).targets.length
      = 2 := hf.targets_fillScript.length_eq.trans (by decide)
  have hwithin : (fillScript (sectorsFor 7552) ((SectorMap.empty 64).lowestFor 7552)).Within 64 :=
    hf.within_fillScript fun _ => SectorMap.lt_of_mem_lowestFor
  obtain ⟨k, q, -, hplay⟩ := Script.play_of_budgeted (FaultPlan.budgeted_default 1)
    (by rw [hlength]; decide) hwithin hm
  have hfollows : Follows m 64 (Disk.runOn ⟨.empty 64, .empty⟩ (allocate 7552)) _ _ :=
    follows_allocate_lowestFor (SectorMap.freeCount_eq htidy) (by rw [hfree]; decide) hf
  have hrun := hfollows { budget := some 1 }
  rw [bind_apply, hplay, Disk.runOn] at hrun
  cases hact : allocate 7552 ⟨⟨m, 64, { budget := some 1 }⟩, .empty 64, .empty⟩ with
  | ok u held =>
    rw [hact] at hrun
    cases hrun
  | error cause held =>
    obtain ⟨hmap, hundone, -⟩ := (failed_allocations_are_undone htidy _ _ _).1 cause held hact
    exact ⟨_, cause, held, htidy, hact, hmap, hundone⟩

end Header

end IndexedDisk
