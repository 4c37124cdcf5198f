import IndexedDisk.Proofs.Free
import IndexedDisk.Proofs.Layout
import IndexedDisk.Volume
import Mathlib.Data.List.Perm.Basic

/-!
# Giving sectors back

A file whose sectors are all in use, none of them named twice, gives back exactly those
(`follows_deallocate`). Its index blocks are read on the way and nothing is written.
-/

namespace IndexedDisk

namespace SectorMap

/-- All of the sectors are in use, and none of them is named twice. -/
structure InUse (map : SectorMap) (sectors : List Nat) : Prop where
  nodup : sectors.Nodup
  lt : ∀ i ∈ sectors, i < map.size
  bit : ∀ i ∈ sectors, map.bit i = true

theorem InUse.append {map : SectorMap} {a b : List Nat} (h : map.InUse (a ++ b)) :
    map.InUse a ∧ (map.setAll a false).InUse b := by
  obtain ⟨hnodup, hlt, hbit⟩ := h
  obtain ⟨ha, hb, hdisjoint⟩ := List.nodup_append.mp hnodup
  have hlt' : ∀ i ∈ a, i < map.size := fun i hi => hlt i (List.mem_append_left _ hi)
  refine ⟨⟨ha, hlt', fun i hi => hbit i (List.mem_append_left _ hi)⟩, hb, fun i hi => ?_,
    fun i hi => ?_⟩
  · rw [size_setAll]
    exact hlt i (List.mem_append_right _ hi)
  · rw [bit_setAll hlt', if_neg fun hc => hdisjoint i hc i hi rfl]
    exact hbit i (List.mem_append_right _ hi)

theorem InUse.perm {map : SectorMap} {a b : List Nat} (h : map.InUse a) (hp : a.Perm b) :
    map.InUse b :=
  ⟨hp.nodup_iff.mp h.nodup, fun i hi => h.lt i (hp.mem_iff.mpr hi),
    fun i hi => h.bit i (hp.mem_iff.mpr hi)⟩

theorem InUse.length_free {map : SectorMap} {sectors : List Nat} (h : map.InUse sectors) :
    (map.setAll sectors false).free.length = map.free.length + sectors.length := by
  have hnodup : (map.free ++ sectors).Nodup := by
    refine List.nodup_append.mpr ⟨nodup_free map, h.nodup, ?_⟩
    rintro i hi _ hi' rfl
    have hbit := h.bit i hi'
    rw [(mem_free.mp hi).2] at hbit
    cases hbit
  rw [← List.length_append]
  refine ((List.perm_ext_iff_of_nodup (nodup_free _) hnodup).mpr fun i => ?_).length_eq
  rw [mem_free, size_setAll, bit_setAll h.lt, List.mem_append, mem_free]
  by_cases hi : i ∈ sectors
  · simp [hi, h.lt i hi]
  · simp [hi]

theorem setAll_perm {map : SectorMap} {a b : List Nat} (h : ∀ i ∈ a, i < map.size)
    (hp : a.Perm b) (x : Bool) : map.setAll a x = map.setAll b x := by
  refine ext_bit (by simp) fun i => ?_
  rw [bit_setAll h, bit_setAll fun i hi => h i (hp.mem_iff.mpr hi)]
  simp only [hp.mem_iff]

end SectorMap

namespace Header

variable {m : Medium} {count : Nat} {map : SectorMap} {h : Header}

theorem follows_giveBack {p : Int32} (hp : map.InUse [Word.wide p]) :
    Follows m count (Disk.runOn ⟨map, h⟩ (giveBack p)) []
      (.ok ((), ⟨map.setAll [Word.wide p] false, h⟩)) := by
  have hrelease : map.release (Word.wide p) = .ok (map.setAll [Word.wide p] false) := by
    rw [SectorMap.release, if_pos (hp.lt _ (List.mem_singleton_self _)),
      if_pos (hp.bit _ (List.mem_singleton_self _))]
    rfl
  intro q
  simp only [Disk.runOn, giveBack, hrelease]
  rfl

theorem follows_giveBackAll {ps : List Int32} (hp : map.InUse (ps.map Word.wide)) :
    Follows m count (Disk.runOn ⟨map, h⟩ (giveBackAll ps)) []
      (.ok ((), ⟨map.setAll (ps.map Word.wide) false, h⟩)) := by
  induction ps generalizing map with
  | nil => exact Follows.runOn_pure _ _
  | cons p ps ih =>
    obtain ⟨hfirst, hrest⟩ := hp.append (a := [_])
    exact Follows.runOn_bind (follows_giveBack hfirst) (ih hrest)

/-- The sectors that go with a block. -/
def blockPointersOf (m : Medium) (p : Int32) : List Int32 := (IndexBlock.stored m p).named ++ [p]

theorem follows_giveBackBlock {p : Int32}
    (hle : Word.wide (IndexBlock.stored m p).count ≤ blockPointers)
    (hp : map.InUse ((blockPointersOf m p).map Word.wide)) :
    Follows m count (Disk.runOn ⟨map, h⟩ (giveBackBlock p)) (Script.reads [Word.wide p])
      (.ok ((), ⟨map.setAll ((blockPointersOf m p).map Word.wide) false, h⟩)) := by
  rw [blockPointersOf, List.map_append] at hp ⊢
  obtain ⟨hnamed, hblock⟩ := hp.append
  rw [SectorMap.setAll_append]
  exact Follows.runOn_bind (Follows.runOn_lift (IndexBlock.follows_entriesAt hle))
    (Follows.runOn_bind (follows_giveBackAll hnamed) (follows_giveBack hblock))

theorem follows_giveBackBlocks {ps : List Int32}
    (hle : ∀ p ∈ ps, Word.wide (IndexBlock.stored m p).count ≤ blockPointers)
    (hp : map.InUse ((ps.flatMap (blockPointersOf m)).map Word.wide)) :
    Follows m count (Disk.runOn ⟨map, h⟩ (giveBackBlocks ps)) (Script.reads (ps.map Word.wide))
      (.ok ((), ⟨map.setAll ((ps.flatMap (blockPointersOf m)).map Word.wide) false, h⟩)) := by
  induction ps generalizing map with
  | nil => exact Follows.runOn_pure _ _
  | cons p ps ih =>
    rw [List.flatMap_cons, List.map_append] at hp ⊢
    obtain ⟨hfirst, hrest⟩ := hp.append
    rw [SectorMap.setAll_append]
    refine Follows.runOn_bind (follows_giveBackBlock (hle p (List.mem_cons_self ..)) hfirst) ?_
    rw [Script.medium_reads]
    exact ih (fun p hp => hle p (List.mem_cons_of_mem _ hp)) hrest

theorem follows_current : Follows m count (Disk.runOn ⟨map, h⟩ current) []
    (.ok (h, ⟨map, h⟩)) := fun _ => rfl

theorem follows_amend (f : Header → Header) : Follows m count (Disk.runOn ⟨map, h⟩ (amend f)) []
    (.ok ((), ⟨map, f h⟩)) := fun _ => rfl

/-- The sectors of the single tier. -/
def singleTier (m : Medium) (h : Header) : List Int32 :=
  h.single?.toList.flatMap (blockPointersOf m)

/-- The sectors of the double tier. -/
def doubleTier (m : Medium) (h : Header) : List Int32 :=
  (h.children m).flatMap (blockPointersOf m) ++ h.double?.toList

theorem perm_tiers (m : Medium) (h : Header) :
    ((h.directSectors ++ h.singleTier m ++ h.doubleTier m).map Word.wide).Perm
      (h.data m ++ h.index m) := by
  rw [data, index, ← List.map_append]
  refine List.Perm.map _ ?_
  have hsingle : (h.singleTier m).Perm (h.singlePointers m ++ h.single?.toList) := by
    rw [singleTier, singlePointers]
    cases h.single? with
    | none => exact List.Perm.refl _
    | some p =>
      rw [Option.toList_some, List.flatMap_singleton]
      exact List.Perm.refl _
  have hdouble : (h.doubleTier m).Perm
      (h.doublePointers m ++ (h.double?.toList ++ h.children m)) := by
    rw [doubleTier, doublePointers]
    have hsplit := List.flatMap_append_perm (h.children m)
      (fun c => (IndexBlock.stored m c).named) fun c => [c]
    rw [List.flatMap_singleton'] at hsplit
    refine (hsplit.symm.append_right _).trans ?_
    rw [List.append_assoc]
    exact List.Perm.append_left _ List.perm_append_comm
  rw [dataPointers, indexPointers]
  simp only [List.append_assoc] at hdouble ⊢
  refine List.Perm.append_left _ ((hsingle.append hdouble).trans ?_)
  rw [List.append_assoc]
  refine List.Perm.append_left _ ?_
  exact List.perm_append_comm_assoc ..

theorem follows_releaseSingle
    (hle : ∀ p, h.single? = some p → Word.wide (IndexBlock.stored m p).count ≤ blockPointers)
    (hp : map.InUse ((h.singleTier m).map Word.wide)) :
    Follows m count (Disk.runOn ⟨map, h⟩ releaseSingle)
      (Script.reads (h.single?.toList.map Word.wide))
      (.ok ((), ⟨map.setAll ((h.singleTier m).map Word.wide) false,
        { h with single := noSector }⟩)) := by
  unfold singleTier at hp ⊢
  refine Follows.of_script (Follows.runOn_bind follows_current ?_) (List.nil_append _)
  rw [Script.medium_nil]
  cases hs : h.single? with
  | none =>
    have hnone : h.single = noSector := by
      by_cases hsingle : h.single = noSector
      · exact hsingle
      · rw [single?_eq_some hsingle] at hs
        cases hs
    have heq : { h with single := noSector } = h := by rw [← hnone]
    rw [heq]
    exact Follows.runOn_pure () _
  | some p =>
    rw [hs, Option.toList_some, List.flatMap_singleton] at hp
    rw [Option.toList_some, List.flatMap_singleton]
    exact Follows.runOn_bind (follows_giveBackBlock (hle p hs) hp) (follows_amend _)

theorem follows_releaseDouble
    (hle : ∀ p, h.double? = some p → Word.wide (IndexBlock.stored m p).count ≤ blockPointers)
    (hle' : ∀ c ∈ h.children m, Word.wide (IndexBlock.stored m c).count ≤ blockPointers)
    (hp : map.InUse ((h.doubleTier m).map Word.wide)) :
    Follows m count (Disk.runOn ⟨map, h⟩ releaseDouble)
      (Script.reads ((h.double?.toList ++ h.children m).map Word.wide))
      (.ok ((), ⟨map.setAll ((h.doubleTier m).map Word.wide) false,
        { h with double := noSector }⟩)) := by
  unfold doubleTier at hp ⊢
  refine Follows.of_script (Follows.runOn_bind follows_current ?_) (List.nil_append _)
  rw [Script.medium_nil]
  cases hd : h.double? with
  | none =>
    have hnone : h.double = noSector := by
      by_cases hdouble : h.double = noSector
      · exact hdouble
      · rw [double?_eq_some hdouble] at hd
        cases hd
    have hchildren : h.children m = [] := by rw [children, hd]
    have heq : { h with double := noSector } = h := by rw [← hnone]
    rw [heq, hchildren]
    exact Follows.runOn_pure () _
  | some p =>
    have hchildren : h.children m = (IndexBlock.stored m p).named := by rw [children, hd]
    rw [hd, Option.toList_some, List.map_append] at hp
    rw [Option.toList_some, List.map_append, List.map_append, Script.reads_append,
      SectorMap.setAll_append]
    obtain ⟨hblocks, hblock⟩ := hp.append
    rw [hchildren] at hblocks hblock hle' ⊢
    refine Follows.runOn_bind (Follows.runOn_lift (IndexBlock.follows_entriesAt (hle p hd))) ?_
    rw [Script.medium_reads]
    refine Follows.of_script (Follows.runOn_bind (follows_giveBackBlocks hle' hblocks) ?_)
      (List.append_nil _)
    exact Follows.runOn_bind (follows_giveBack hblock) (follows_amend _)

/-- A file gives back its sectors. -/
theorem follows_deallocate (hl : h.Legible m) (hp : map.InUse (h.data m ++ h.index m)) :
    Follows m count (Disk.runOn ⟨map, h⟩ deallocate) (Script.reads (h.index m))
      (.ok ((), ⟨map.setAll (h.data m ++ h.index m) false,
        { h with single := noSector, double := noSector }⟩)) := by
  have hperm := perm_tiers m h
  have hp' := hp.perm hperm.symm
  rw [← SectorMap.setAll_perm hp'.lt hperm]
  rw [List.map_append, List.map_append] at hp' ⊢
  rw [SectorMap.setAll_append, SectorMap.setAll_append]
  obtain ⟨hfirst, hdouble⟩ := hp'.append
  obtain ⟨hdirect, hsingle⟩ := hfirst.append
  rw [SectorMap.setAll_append] at hdouble
  have hscript : Script.reads (h.index m) = Script.reads (h.single?.toList.map Word.wide)
      ++ Script.reads ((h.double?.toList ++ h.children m).map Word.wide) := by
    rw [index, indexPointers, List.append_assoc, List.map_append, Script.reads_append]
  rw [hscript]
  refine Follows.of_script (Follows.runOn_bind follows_current ?_) (List.nil_append _)
  refine Follows.of_script (Follows.runOn_bind (follows_giveBackAll hdirect) ?_) (List.nil_append _)
  refine Follows.runOn_bind (follows_releaseSingle hl.single_le hsingle) ?_
  rw [Script.medium_reads]
  exact follows_releaseDouble (h := { h with single := noSector }) hl.double_le hl.child_le hdouble

end Header

theorem Volume.follows_freeFile {m : Medium} {count : Nat} {map : SectorMap} {h : Header}
    {sector : Int32} (hh : h.Intact m)
    (hp : map.InUse (h.data m ++ h.index m ++ [Word.wide sector])) :
    Follows m count (freeFile map h sector) (Script.reads (h.index m))
      (.ok (map.setAll (h.data m ++ h.index m ++ [Word.wide sector]) false)) := by
  obtain ⟨hfile, hheader⟩ := hp.append
  have hrelease : (map.setAll (h.data m ++ h.index m) false).release (Word.wide sector)
      = .ok ((map.setAll (h.data m ++ h.index m) false).setAll [Word.wide sector] false) := by
    rw [SectorMap.release, if_pos (hheader.lt _ (List.mem_singleton_self _)),
      if_pos (hheader.bit _ (List.mem_singleton_self _))]
    rfl
  rw [SectorMap.setAll_append]
  exact Follows.bind_nil (Header.follows_deallocate hh.legible hfile) (Follows.of_ok hrelease)

end IndexedDisk
