import IndexedDisk.Proofs.Placement
import IndexedDisk.Proofs.Releasing
import IndexedDisk.Proofs.Wrapping

/-!
# Giving back what is listed

The enumerations of a header and its release go over the tiers in different orders, and trust the
counts that they find on the disk. They come to the same sectors for every header and whatever the
disk holds: if the data sectors and the index blocks can be listed, then no count is out of bounds
(`legible_of_dataSectors`), and the release reads the same blocks and frees what was listed.

* `IndexBlock.le_of_entriesAt`, `le_of_entriesOf`: a list that was found says what the counts are.
* `deallocate_of_laid`: an allocated file is given back whatever has been written since.
* `gives_back_what_is_listed`: both, as one statement.
* `not_taken_back`: a sector that no pointer can name, and an allocation that is refused.
-/

namespace IndexedDisk

theorem SectorMap.isMarked_eq_true {map : SectorMap} {i : Nat} :
    map.isMarked i = .ok true ↔ i < map.size ∧ map.bit i = true := by
  unfold isMarked
  split
  · next h => simp [h]
  · next h => simp [h]

namespace IndexBlock

variable {p : Int32} {disk disk' : Disk} {l : List Int32}

theorem le_of_entriesAt (h : entriesAt p disk = .ok l disk') :
    Word.wide (stored disk.medium p).count ≤ blockPointers ∧ l = (stored disk.medium p).named ∧
      disk'.medium = disk.medium := by
  obtain ⟨m, count, q⟩ := disk
  by_cases hle : Word.wide (stored m p).count ≤ blockPointers
  · obtain ⟨hl, hplay⟩ := (follows_entriesAt hle).play_of_ok h
    obtain rfl := Script.play_ok hplay
    exact ⟨hle, (Except.ok.inj hl).symm, Script.medium_reads m _⟩
  · have hfollows : Follows m count (entriesAt p) _ _ :=
      Follows.bind (follows_fetch p) (Follows.of_error (if_neg hle))
    cases (hfollows.play_of_ok h).1

end IndexBlock

namespace Header

variable {h : Header} {disk disk' : Disk} {l : List Int32}

theorem le_of_entriesOf {blocks : List Int32} (hb : entriesOf blocks disk = .ok l disk') :
    ∀ c ∈ blocks, Word.wide (IndexBlock.stored disk.medium c).count ≤ blockPointers := by
  induction blocks generalizing disk l disk' with
  | nil => exact nofun
  | cons c blocks ih =>
    obtain ⟨named, disk₁, hc, hrest⟩ := exists_of_bind hb
    obtain ⟨rest, disk₂, hblocks, -⟩ := exists_of_bind hrest
    obtain ⟨hle, -, hmedium⟩ := IndexBlock.le_of_entriesAt hc
    intro c' hc'
    rcases List.mem_cons.mp hc' with rfl | hc'
    · exact hle
    · exact hmedium ▸ ih hblocks c' hc'

theorem le_of_singleSectors (hs : h.singleSectors disk = .ok l disk') :
    (∀ p, h.single? = some p →
      Word.wide (IndexBlock.stored disk.medium p).count ≤ blockPointers) ∧
    disk'.medium = disk.medium := by
  unfold singleSectors at hs
  cases hsingle : h.single? with
  | none =>
    rw [hsingle] at hs
    cases hs
    exact ⟨nofun, rfl⟩
  | some p =>
    rw [hsingle] at hs
    obtain ⟨hle, -, hmedium⟩ := IndexBlock.le_of_entriesAt hs
    exact ⟨fun q hq => Option.some.inj hq ▸ hle, hmedium⟩

theorem le_of_doubleSectors (hd : h.doubleSectors disk = .ok l disk') :
    (∀ p, h.double? = some p →
      Word.wide (IndexBlock.stored disk.medium p).count ≤ blockPointers) ∧
    ∀ c ∈ h.children disk.medium,
      Word.wide (IndexBlock.stored disk.medium c).count ≤ blockPointers := by
  unfold doubleSectors at hd
  unfold children
  cases hdouble : h.double? with
  | none => exact ⟨nofun, nofun⟩
  | some p =>
    rw [hdouble] at hd
    dsimp only at hd
    obtain ⟨blocks, disk₁, hp, hblocks⟩ := exists_of_bind hd
    obtain ⟨hle, hnamed, hmedium⟩ := IndexBlock.le_of_entriesAt hp
    have hchildren := le_of_entriesOf hblocks
    rw [hnamed, hmedium] at hchildren
    exact ⟨fun q hq => Option.some.inj hq ▸ hle, hchildren⟩

/-- A header whose data sectors were found leads to no block that is out of bounds. -/
theorem legible_of_dataSectors (hdata : h.dataSectors disk = .ok l disk') :
    h.Legible disk.medium := by
  obtain ⟨single, disk₁, hsingle, hrest⟩ := exists_of_bind hdata
  obtain ⟨double, disk₂, hdouble, -⟩ := exists_of_bind hrest
  obtain ⟨hle, hmedium⟩ := le_of_singleSectors hsingle
  obtain ⟨hle', hchildren⟩ := le_of_doubleSectors hdouble
  rw [hmedium] at hle' hchildren
  exact ⟨hle, hle', hchildren⟩

variable {map : SectorMap}

/-- What the enumerations list can be given back, if the map has all of it in use. -/
theorem deallocate_of_listed {data index : List Int32} {d₁ d₂ : Disk}
    (hdata : h.dataSectors disk = .ok data d₁) (hindex : h.indexSectors disk = .ok index d₂)
    (hnodup : (data ++ index).Nodup)
    (hmarked : ∀ p ∈ data ++ index, map.isMarked (Word.wide p) = .ok true) :
    map.InUse ((data ++ index).map Word.wide) ∧
    deallocate ⟨disk, map, h⟩ = .ok () ⟨d₁, map.setAll ((data ++ index).map Word.wide) false,
      { h with single := noSector, double := noSector }⟩ ∧
    d₁.medium = disk.medium ∧ d₁.count = disk.count := by
  have hinUse : map.InUse ((data ++ index).map Word.wide) := by
    refine ⟨hnodup.map fun _ _ => Word.wide_injective, fun i hi => ?_, fun i hi => ?_⟩ <;>
    · obtain ⟨p, hp, rfl⟩ := List.mem_map.mp hi
      have := SectorMap.isMarked_eq_true.mp (hmarked p hp)
      first | exact this.1 | exact this.2
  refine ⟨hinUse, ?_⟩
  obtain ⟨m, count, q⟩ := disk
  have hl := legible_of_dataSectors hdata
  obtain ⟨hdata, hplay⟩ := hl.follows_dataSectors.play_of_ok hdata
  obtain ⟨hindex, -⟩ := hl.follows_indexSectors.play_of_ok hindex
  obtain rfl := Except.ok.inj hdata
  obtain rfl := Except.ok.inj hindex
  rw [List.map_append] at hinUse ⊢
  have hfollows : Follows m count (Disk.runOn ⟨map, h⟩ deallocate) _ _ :=
    follows_deallocate hl hinUse
  have hrun := hfollows q
  rw [bind_apply, hplay] at hrun
  obtain rfl := Script.play_ok hplay
  exact ⟨Disk.eq_ok_of_runOn hrun, Script.medium_reads m _, rfl⟩

theorem deallocate_of_laid {size : Nat} {held : Disk.With Holding} (hl : Laid map size disk held)
    {m : Medium} {p : FaultPlan} (hsize : held.disk.medium.size ≤ m.size)
    (hm : ∀ s ∈ held.value.header.index held.disk.medium, m.get s = held.disk.medium.get s)
    (hp : p.Yields (held.value.header.index held.disk.medium)) : ∃ disk' h',
      deallocate ⟨⟨m, held.disk.count, p⟩, held.value⟩ = .ok () ⟨disk', map, h'⟩ := by
  have hperm := hl.perm
  have hh := hl.intact.congr hm
  have hdeliver : Disk.Delivers ⟨m, held.disk.count, p⟩
      (held.value.header.index held.disk.medium) := {
    toYields := hp
    lt_count := fun s hs => hl.count_eq ▸ hl.lt_count s (hl.index_eq ▸ hs)
    covered := fun s hs => Nat.le_trans (hl.covered s (hl.index_eq ▸ hs)) hsize }
  have hinUse : held.value.map.InUse (held.value.header.data held.disk.medium
      ++ held.value.header.index held.disk.medium) := by
    rw [hl.map_eq]
    refine ⟨hl.separate, fun i hi => ?_, fun i hi => ?_⟩
    · rw [SectorMap.size_setAll]
      exact SectorMap.lt_of_mem_lowestFor (hperm.subset hi)
    · exact SectorMap.bit_take_lowestFor.mpr (Or.inr (hperm.subset hi))
  rw [← data_congr hm, ← index_congr hm] at hinUse
  rw [← index_congr hm] at hdeliver
  have hrun := (follows_deallocate hh.legible hinUse).eval_of_delivers hdeliver
  have hmap : held.value.map.setAll (held.value.header.data m ++ held.value.header.index m) false
      = map := by
    rw [data_congr hm, index_congr hm, hl.map_eq]
    exact SectorMap.setAll_setAll SectorMap.lowestFor_subset fun i => hperm.mem_iff
  rw [hmap] at hrun
  exact ⟨_, _, Disk.eq_ok_of_runOn hrun⟩

/--
**A release frees exactly what the enumerations list.** Take any header, allocated or not, and any
disk. If its data sectors and its index blocks can be listed, no sector is listed twice, and the map
has each of them in use, then the release succeeds: it frees exactly these sectors, leaves the
medium as it was, and takes both index pointers away. So an allocation that succeeds is taken back to
the bit, whatever has been written outside of the index blocks in between, if these can be read and
the numbers of the sectors fit in pointers.
-/
theorem gives_back_what_is_listed :
    (∀ (disk : Disk) (map : SectorMap) (h : Header) (data index : List Int32) (d₁ d₂ : Disk),
      h.dataSectors disk = .ok data d₁ → h.indexSectors disk = .ok index d₂ →
      (data ++ index).Nodup → (∀ p ∈ data ++ index, map.isMarked (Word.wide p) = .ok true) →
      ∃ disk' map', deallocate ⟨disk, map, h⟩
          = .ok () ⟨disk', map', { h with single := noSector, double := noSector }⟩ ∧
        disk'.medium = disk.medium ∧ disk'.count = disk.count ∧ map'.size = map.size ∧
        ∀ i, map'.bit i = true ↔ map.bit i = true ∧ i ∉ (data ++ index).map Word.wide) ∧
    ∀ (size : Nat) (disk : Disk) (map : SectorMap) (h : Header) (held : Disk.With Holding),
      map.Addressable size → allocate size ⟨disk, map, h⟩ = .ok () held →
      ∀ (script : Script) (p : FaultPlan),
        (∀ s ∈ script.targets, s ∉ held.value.header.index held.disk.medium) →
        p.Yields (held.value.header.index held.disk.medium) →
        ∃ disk' h', deallocate
            ⟨⟨script.medium held.disk.medium, held.disk.count, p⟩, held.value⟩
          = .ok () ⟨disk', map, h'⟩ := by
  refine ⟨?_, ?_⟩
  · intro disk map h data index d₁ d₂ hdata hindex hnodup hmarked
    obtain ⟨hinUse, hact, hmedium, hcount⟩ := deallocate_of_listed hdata hindex hnodup hmarked
    refine ⟨_, _, hact, hmedium, hcount, SectorMap.size_setAll .., fun i => ?_⟩
    rw [SectorMap.bit_setAll hinUse.lt]
    generalize (data ++ index).map Word.wide = sectors
    by_cases hi : i ∈ sectors <;> simp [hi]
  · intro size disk map h held hsmall hact script p hscript hp
    exact deallocate_of_laid (laid_of_allocate hsmall hact) (Script.le_size_medium ..)
      (fun s hs => Script.get_medium_of_not_mem (fun htarget => hscript s htarget hs) _) hp

/--
A header with a negative count, for which all its 28 pointers count as data sectors, is given back;
and so is a file with an empty double block after a write to its fourth data sector.
-/
theorem gives_back_what_is_listed_negative : ∃ (disk : Disk) (map : SectorMap) (h : Header)
    (held : Disk.With Holding), h.sectorCount = -1 ∧
    (∃ disk' map', deallocate ⟨disk, map, h⟩
        = .ok () ⟨disk', map', { h with single := noSector, double := noSector }⟩ ∧
      map.bit 27 = true ∧ map'.bit 27 = false) ∧
    allocate 7552 ⟨disk, .empty 64, h⟩ = .ok () held ∧
    ∃ disk' h', deallocate ⟨⟨Script.medium held.disk.medium [.write 3 Sector.zero],
        held.disk.count, {}⟩, held.value⟩ = .ok () ⟨disk', .empty 64, h'⟩ := by
  obtain ⟨map, hsize, hbit⟩ : ∃ map : SectorMap, map.size = 28 ∧ ∀ i < 28, map.bit i = true := by
    refine ⟨(SectorMap.empty 28).setAll (List.range 28) true, by simp, fun i hi => ?_⟩
    have hlt : ∀ i ∈ List.range 28, i < (SectorMap.empty 28).size := fun i => List.mem_range.mp
    rw [SectorMap.bit_setAll hlt, if_pos (List.mem_range.mpr hi)]
  obtain ⟨h, hcount, hsectors, hdata, hindex⟩ : ∃ h : Header, h.sectorCount = -1 ∧
      (h.directSectors ++ []).map Word.wide = List.range 28 ∧
      (∀ disk, h.dataSectors disk = .ok h.directSectors disk) ∧
      ∀ disk, h.indexSectors disk = .ok [] disk := by
    refine ⟨{ empty with sectorCount := -1, direct := Vector.ofFn fun i => Word.ofNat i.val },
      rfl, by decide +kernel, fun disk => ?_, fun disk => rfl⟩
    change EStateM.Result.ok (_ ++ [] ++ []) disk = _
    rw [List.append_nil, List.append_nil]
  obtain ⟨held, hallocate⟩ := exists_allocate_full (.replicate 0 0) h
  have hlaid := laid_of_allocate (SectorMap.addressable_of_size_le (by decide) _) hallocate
  obtain ⟨hlisted, hrestored⟩ := gives_back_what_is_listed
  obtain ⟨disk', map', hact, -, -, -, hiff⟩ := hlisted ⟨.replicate 0 0, 64, {}⟩ map h _ _ _ _
    (hdata _) (hindex _) (List.Nodup.of_map Word.wide (hsectors ▸ List.nodup_range)) fun p hp => by
      have hlt : Word.wide p < 28 := List.mem_range.mp (hsectors ▸ List.mem_map_of_mem hp)
      exact SectorMap.isMarked_eq_true.mpr ⟨hsize ▸ hlt, hbit _ hlt⟩
  refine ⟨_, map, h, held, hcount, ⟨disk', map', hact, hbit 27 (by decide), ?_⟩, hallocate,
    hrestored 7552 _ _ h held (SectorMap.addressable_of_size_le (by decide) _) hallocate
      [.write 3 Sector.zero] {} ?_ ?_⟩
  · refine eq_false_of_ne_true fun h27 => ((hiff 27).mp h27).2 ?_
    rw [hsectors]
    decide
  · rw [hlaid.index_eq]
    decide
  · rw [hlaid.index_eq]
    exact ⟨by simp, fun _ _ => rfl⟩

/-- One byte on a map of which sector `n` alone is free is allocated and cannot be given back, where
`n` is too large for a pointer. -/
theorem exists_not_given_back {n : Nat} (hn : 0x80000000 ≤ n) (hn' : n < 0x100000000)
    (disk : Disk) (h : Header) : ∃ held,
      allocate 1 ⟨disk, .fullBut (n + 1) [n], h⟩ = .ok () held ∧
      deallocate held = .error (.broken (.outsideMap (0xFFFFFFFF00000000 + n))) held := by
  have hfree : (SectorMap.fullBut (n + 1) [n]).free = [n] :=
    SectorMap.free_fullBut (List.pairwise_singleton _ _) fun i hi =>
      Nat.lt_succ_of_le (Nat.le_of_eq (List.mem_singleton.mp hi))
  have hact := allocate_direct 1 SectorMap.tidy_fullBut (by decide)
    (Nat.le_of_eq (congrArg List.length hfree).symm) disk h
  rw [hfree] at hact
  refine ⟨_, hact, deallocate_of_negative hn hn' ?_ disk⟩
  rw [SectorMap.size_setAll, SectorMap.size_fullBut]
  omega

/--
What a release does not take back. Sector `2 ^ 31` is too large for a pointer, and the file that was
put there leads past the end of the map. Where an allocation is refused the header keeps the file that
it had, and the release gives that one back.
-/
theorem not_taken_back :
    (∃ held, allocate 1 ⟨⟨.replicate 0 0, 0x80000001, {}⟩, .fullBut 0x80000001 [0x80000000],
        .empty⟩ = .ok () held ∧
      deallocate held = .error (.broken (.outsideMap 0xFFFFFFFF80000000)) held) ∧
    ∃ held disk' h', allocate 1 ⟨⟨.replicate 0 0, 1, {}⟩, .empty 1, .empty⟩ = .ok () held ∧
      allocate (maxFileSize + 1) held
        = .error (.refused (.fileTooLarge (maxFileSize + 1))) held ∧
      deallocate held = .ok () ⟨disk', .empty 1, h'⟩ ∧ held.value.map.bit 0 = true := by
  refine ⟨exists_not_given_back (by decide) (by decide) _ _, ?_⟩
  have hsmall : (SectorMap.empty 1).Addressable 1 := SectorMap.addressable_of_size_le (by decide) _
  have htidy : (SectorMap.empty 1).Tidy := fun i _ => SectorMap.bit_empty 1 i
  have hact := allocate_direct 1 htidy (by decide) (by decide) ⟨.replicate 0 0, 1, {}⟩ .empty
  obtain ⟨disk', h', hback⟩ := deallocate_of_laid (laid_of_allocate hsmall hact) (Nat.le_refl _)
    (fun _ _ => rfl) (p := {}) ⟨by simp, fun _ _ => rfl⟩
  exact ⟨_, disk', h', hact, allocate_tooLarge (Nat.lt_succ_self _) _, hback, by decide⟩

end Header

end IndexedDisk
