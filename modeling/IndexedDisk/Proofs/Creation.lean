import IndexedDisk.Proofs.Drawing
import IndexedDisk.Proofs.Frame
import IndexedDisk.Proofs.Walk

/-!
# What making a file does

A `Creation` says where a new file goes: the slot of its entry and its sectors, which are the
lowest free ones. Everything but the last two steps is *staged* in sectors that were free. Then the
directory is written, and the sector map last.

* `sameTree_staged`: staging leaves the tree as it was.
* `rewritten_after`: the last two steps change the directory and the map, and nothing else.
* `names_after`, `consistent_after`: the tree has the new file, and is well formed again.
-/

open IndexedDisk.Tree

namespace IndexedDisk

/-- Where a new file goes. -/
structure Creation where
  /-- The header of the directory. -/
  parent : Int32
  /-- The slot of the entry. -/
  slot : Nat
  name : String
  kind : EntryKind
  size : Nat
  /-- The sector of the new header. -/
  sector : Nat
  /-- The free sectors after it. -/
  rest : List Nat

namespace Creation

variable (c : Creation) (m : Medium) (count : Nat)

/-- The new entry. -/
def entry : Entry := .named c.name (Word.ofNat c.sector) c.kind

/-- The new header. -/
def header : Header := .planned c.size c.rest

/-- The sectors of the new file. -/
def drawn : List Nat :=
  c.sector :: c.rest.take (sectorsFor c.size + indexBlocksFor (sectorsFor c.size))

/-- The directory with the new entry. -/
def directory : Directory :=
  ⟨(table m (Word.wide c.parent)).slots.setIfInBounds c.slot c.entry⟩

/-- The sector map with the sectors of the new file in use. -/
def map : SectorMap := (bitmap m count).setAll c.drawn true

/-- The index blocks and the header are written. -/
def fileScript : Script :=
  Header.fillScript (sectorsFor c.size) c.rest ++ [.write c.sector c.header.toSector]

/-- A new directory is made blank. -/
def blankScript : Script :=
  if c.kind = .directory then
    .read c.sector
      :: c.header.writeScript (c.fileScript.medium m) 0 (Directory.empty directorySlots).image
  else []

/-- All that is done before the entry is made. -/
def stage : Script := c.fileScript ++ c.blankScript m

/-- The entry is made. -/
def directoryScript : Script :=
  (Header.stored m (Word.wide c.parent)).writeScript m 0 (c.directory m).image

/-- The sectors are put in use. -/
def mapScript : Script :=
  (Header.stored m (Word.wide mapSector)).writeScript m 0 (c.map m count).image

/-- All that is done to make the file. -/
def script : Script := c.stage m ++ (c.directoryScript m ++ c.mapScript m count)

/-- The file can be made there. -/
structure Valid : Prop where
  parent : Reached m (Word.wide c.parent)
  slot_lt : c.slot < directorySlots
  slot_free : slot? m (Word.wide c.parent) c.slot = none
  slot_first : ∀ j < c.slot, slot? m (Word.wide c.parent) j ≠ none
  free : (bitmap m count).free = c.sector :: c.rest
  fits : Header.Fits c.size c.rest
  kind : c.kind = .directory → c.size = directoryFileSize

/-- The file is the one that is asked for. -/
structure Serves (path : String) (size : Nat) (kind : EntryKind) : Prop where
  valid : c.Valid m count
  leads : LeadsTo m path c.parent c.name
  size_eq : c.size = size
  kind_eq : c.kind = kind

/-- The medium before the entry is made. -/
def staged : Medium := (c.stage m).medium m

/-- The medium once the entry is made. -/
def entered : Medium := (c.directoryScript m).medium (c.staged m)

/-- The medium once the file is made. -/
def after : Medium := (c.mapScript m count).medium (c.entered m)

variable {c m count}

theorem medium_script : (c.script m count).medium m = c.after m count := by
  rw [script, Script.medium_append, Script.medium_append]
  rfl

section Stage

variable (hc : Consistent m count) (hv : c.Valid m count)
include hv

theorem mem_free_of_drawn {i : Nat} (hi : i ∈ c.drawn) : i ∈ (bitmap m count).free := by
  rw [hv.free]
  rcases List.mem_cons.mp hi with rfl | hi
  · exact List.mem_cons_self ..
  · exact List.mem_cons_of_mem _ (List.mem_of_mem_take hi)

theorem lt_of_drawn {i : Nat} (hi : i ∈ c.drawn) : i < count :=
  SectorMap.lt_of_mem_free (mem_free_of_drawn hv hi)

theorem nodup_drawn : c.drawn.Nodup := by
  have hnodup := SectorMap.nodup_free (bitmap m count)
  rw [hv.free] at hnodup
  exact hnodup.sublist (List.Sublist.cons_cons _ (List.take_sublist ..))

include hc in
theorem not_owns_of_drawn {i : Nat} (hi : i ∈ c.drawn) (o : Owner) (r : Role) : ¬ Owns m o r i :=
  hc.not_owns_of_free (mem_free_of_drawn hv hi) o r

include hc in
theorem wide_sector : Word.wide (Word.ofNat c.sector) = c.sector := by
  have hlt := lt_of_drawn hv (List.mem_cons_self ..)
  have hle := hc.count_le
  refine Word.wide_ofNat ?_
  simp only [maxFileSize, maxFileSectors, sectorSize, directPointers, blockPointers] at hle
  omega

theorem targets_fileScript_subset : c.fileScript.targets ⊆ c.drawn := by
  rw [fileScript, Script.targets_append]
  refine List.append_subset.mpr ⟨fun i hi => ?_, fun i hi => ?_⟩
  · exact List.mem_cons_of_mem _ (hv.fits.targets_subset hi)
  · rw [List.mem_singleton.mp hi]
    exact List.mem_cons_self ..

theorem nodup_targets_fileScript : c.fileScript.targets.Nodup := by
  rw [fileScript, Script.targets_append]
  refine List.nodup_append.mpr ⟨hv.fits.nodup_targets, by simp [Script.targets], ?_⟩
  rintro i hi _ hi' rfl
  rw [List.mem_singleton.mp hi'] at hi
  exact (List.nodup_cons.mp (nodup_drawn hv)).1 (hv.fits.targets_subset hi)

theorem facts_of_held {m' : Medium} (hm : c.fileScript.Held m') :
    Header.stored m' c.sector = c.header ∧ c.header.Intact m' ∧ c.header.Separate m' ∧
      c.header.data m' = Header.plannedData (sectorsFor c.size) c.rest ∧
      c.header.index m' = Header.plannedIndex (sectorsFor c.size) c.rest := by
  obtain ⟨hblocks, hheader⟩ := Script.held_append.mp hm
  refine ⟨?_, hv.fits.intact_planned hblocks, hv.fits.separate_planned hblocks,
    hv.fits.data_planned hblocks, hv.fits.index_planned hblocks⟩
  rw [Header.stored, hheader _ _ (List.mem_singleton_self _), Header.ofSector_toSector]

theorem perm_drawn : (c.sector :: (Header.plannedData (sectorsFor c.size) c.rest
    ++ Header.plannedIndex (sectorsFor c.size) c.rest)).Perm c.drawn :=
  List.Perm.cons _ hv.fits.perm_planned

theorem held_made : c.fileScript.Held (c.fileScript.medium m) :=
  Script.held_medium (nodup_targets_fileScript hv) m

theorem mem_blankScript {t : Transfer} (ht : t ∈ c.blankScript m) : t.sector ∈ c.drawn := by
  obtain ⟨-, hintact, -, hdata, hindex⟩ := facts_of_held hv (held_made hv)
  unfold blankScript at ht
  split at ht
  · rcases List.mem_cons.mp ht with rfl | ht
    · exact List.mem_cons_self ..
    · have hmem := Header.mem_writeScript 0 _ hintact ht
      rw [hdata, hindex] at hmem
      exact (perm_drawn hv).mem_iff.mp (List.mem_cons_of_mem _ hmem)
  · cases ht

theorem targets_blankScript_subset :
    (c.blankScript m).targets ⊆ Header.plannedData (sectorsFor c.size) c.rest := by
  obtain ⟨-, hintact, -, hdata, -⟩ := facts_of_held hv (held_made hv)
  unfold blankScript
  split
  · rw [← hdata, Script.targets]
    exact Header.targets_writeScript_subset 0 _ hintact
  · exact List.nil_subset _

theorem targets_stage_subset : (c.stage m).targets ⊆ c.drawn := by
  rw [stage, Script.targets_append]
  refine List.append_subset.mpr ⟨targets_fileScript_subset hv, fun i hi => ?_⟩
  exact (perm_drawn hv).mem_iff.mp
    (List.mem_cons_of_mem _ (List.mem_append_left _ (targets_blankScript_subset hv hi)))

theorem get_staged {i : Nat} (hi : i ∉ c.drawn) : (c.staged m).get i = m.get i :=
  Script.get_medium_of_not_mem (fun h => hi (targets_stage_subset hv h)) m

include hc in
theorem sameTree_staged : SameTree m (c.staged m) :=
  .of_free fun _ o r hi => get_staged hv fun hd => not_owns_of_drawn hc hv hd o r hi

theorem held_staged : c.fileScript.Held (c.staged m) := by
  have hnodup := (perm_drawn hv).nodup_iff.mpr (nodup_drawn hv)
  obtain ⟨hsector, hnodup⟩ := List.nodup_cons.mp hnodup
  rw [staged, stage, Script.medium_append]
  refine (held_made hv).congr fun i hi => Script.get_medium_of_not_mem (fun hblank => ?_) _
  have hdata := targets_blankScript_subset hv hblank
  rw [fileScript, Script.targets_append] at hi
  rcases List.mem_append.mp hi with hi | hi
  · exact (List.nodup_append.mp hnodup).2.2 i hdata i (hv.fits.targets_fillScript.mem_iff.mp hi) rfl
  · rw [List.mem_singleton.mp hi] at hdata
    exact hsector (List.mem_append_left _ hdata)

theorem table_staged (hkind : c.kind = .directory) :
    table (c.staged m) c.sector = Directory.empty directorySlots := by
  obtain ⟨-, hintact, hseparate, -, -⟩ := facts_of_held hv (held_made hv)
  have hsize : (Directory.empty directorySlots).size = directorySlots := by
    simp [Directory.empty, Directory.size]
  have hlength : c.header.length = Directory.fileSize (Directory.empty directorySlots).size := by
    rw [header, hv.fits.length_planned, hsize, hv.kind hkind]
    rfl
  have hheld := Directory.held_store (Directory.empty directorySlots) hintact hseparate
    (Nat.le_of_eq hlength.symm)
    (fun _ _ => rfl) fun _ _ => rfl
  rw [hsize] at hheld
  rw [table, (facts_of_held hv (held_staged hv)).1, staged, stage, Script.medium_append,
    blankScript, if_pos hkind, Script.medium_cons, Transfer.medium]
  exact hheld

end Stage

section Commit

variable (hc : Consistent m count) (hv : c.Valid m count)
include hc hv

omit hc hv in
theorem size_directory : (c.directory m).size = directorySlots := by
  rw [directory, Directory.size, Array.size_setIfInBounds, size_table]

omit hc hv in
@[simp] theorem size_map : (c.map m count).size = count := by
  rw [map, SectorMap.size_setAll, size_bitmap]

theorem get_entered {i : Nat} (hi : i ∉ (Header.stored m (Word.wide c.parent)).data m) :
    (c.entered m).get i = (c.staged m).get i := by
  obtain ⟨o, -, ho⟩ := exists_names hv.parent
  exact hc.get_write ho hi 0 _

omit hv in
theorem get_after {i : Nat} (hi : i ∉ (Header.stored m (Word.wide mapSector)).data m) :
    (c.after m count).get i = (c.entered m).get i :=
  hc.get_write .map hi 0 _

theorem get_after_of_drawn {i : Nat} (hi : i ∈ c.drawn) :
    (c.after m count).get i = (c.staged m).get i := by
  obtain ⟨o, -, ho⟩ := exists_names hv.parent
  have hnot {o : Owner} {s : Nat} (hs : Names m o s) : i ∉ (Header.stored m s).data m := by
    intro hd
    obtain ⟨k, hk⟩ := owns_data hs hd
    exact not_owns_of_drawn hc hv hi _ _ hk
  rw [get_after hc (hnot .map), get_entered hc hv (hnot ho)]

theorem held_after : c.fileScript.Held (c.after m count) :=
  (held_staged hv).congr fun _ hi => get_after_of_drawn hc hv (targets_fileScript_subset hv hi)

theorem get_entered_of_map {i : Nat}
    (hi : i ∈ (Header.stored m (Word.wide mapSector)).index m
      ++ (Header.stored m (Word.wide mapSector)).data m) : (c.entered m).get i = m.get i := by
  obtain ⟨o, hmap, ho⟩ := exists_names hv.parent
  have hsame := sameTree_staged hc hv
  rcases List.mem_append.mp hi with hi | hi
  · rw [get_entered hc hv fun hd => ?_]
    · exact (hsame.framed _ _ .map).2 i hi
    · obtain ⟨k, hk⟩ := owns_index .map hi
      obtain ⟨k', hk'⟩ := (hc.role_of_mem_data ho hd hk).2
      cases hk'
  · rw [get_entered hc hv (hc.data_disjoint .map ho (Ne.symm hmap) hi)]
    exact hsame.map i hi

theorem rewritten_after : Rewritten m (c.after m count) count (Word.wide c.parent) (c.directory m)
    (c.map m count) where
  keeps i o r hi hdata hmap := by
    rw [get_after hc hmap, get_entered hc hv hdata,
      get_staged hv fun hd => not_owns_of_drawn hc hv hd o r hi]
  directory := by
    obtain ⟨o, hmap, ho⟩ := exists_names hv.parent
    have hsame := sameTree_staged hc hv
    have hsize := size_directory (c := c) (m := m)
    have hheld := Directory.held_store (c.directory m) (hc.intact _ _ ho) (hc.separate ho)
      (hsize ▸ Nat.le_of_eq (hc.directory_length _ hv.parent).symm) (hsame.framed _ _ ho).2
      (hsame.directory _ hv.parent)
    rw [hsize] at hheld
    have hindex : ∀ i ∈ (Header.stored m (Word.wide c.parent)).index m,
        (c.entered m).get i = m.get i := by
      intro i hi
      rw [get_entered hc hv fun hd => ?_]
      · exact (hsame.framed _ _ ho).2 i hi
      · exact (List.nodup_append.mp (hc.separate ho)).2.2 i hd i hi rfl
    rw [Directory.held, after, mapScript, hc.contents_write .map ho hmap hindex]
    exact hheld
  map := by
    have hheld := SectorMap.held_store (c.map m count) (hc.intact _ _ .map) (hc.separate .map)
      (by rw [size_map]; exact Nat.le_of_eq hc.map_length.symm)
      (fun i hi => get_entered_of_map hc hv (List.mem_append_left _ hi))
      (fun i hi => get_entered_of_map hc hv (List.mem_append_right _ hi))
    rw [size_map] at hheld
    exact hheld

theorem framed_after : Framed m (c.after m count) :=
  (rewritten_after hc hv).framed hc hv.parent

theorem bitmap_after : bitmap (c.after m count) count = c.map m count :=
  (rewritten_after hc hv).bitmap_eq hc hv.parent

/-! ### The tree with the new file -/

theorem getElem?_after (d : Nat) (hd : Reached m d) (j : Nat) :
    (table (c.after m count) d).slots[j]?
      = if d = Word.wide c.parent ∧ j = c.slot then some c.entry else (table m d).slots[j]? := by
  by_cases hparent : d = Word.wide c.parent
  · subst hparent
    have hlt : c.slot < (table m (Word.wide c.parent)).slots.size := by
      rw [size_table]
      exact hv.slot_lt
    rw [(rewritten_after hc hv).table_eq hc hv.parent, directory, Array.getElem?_setIfInBounds]
    by_cases hj : j = c.slot
    · subst hj
      rw [if_pos rfl, if_pos hlt, if_pos ⟨rfl, rfl⟩]
    · rw [if_neg (Ne.symm hj), if_neg fun h => hj h.2]
  · rw [if_neg fun h => hparent h.1, (rewritten_after hc hv).table_of_ne hc hv.parent hd hparent]

theorem slot?_after (d : Nat) (hd : Reached m d) (j : Nat) :
    slot? (c.after m count) d j
      = if d = Word.wide c.parent ∧ j = c.slot then some c.entry else slot? m d j := by
  rw [slot?, getElem?_after hc hv d hd]
  split <;> rfl

theorem table_after_new (hkind : c.kind = .directory) :
    table (c.after m count) c.sector = Directory.empty directorySlots := by
  obtain ⟨hstored, hintact, -, hdata, hindex⟩ := facts_of_held hv (held_staged hv)
  have hafter := facts_of_held hv (held_after hc hv)
  have hkeep {i : Nat} (hi : i ∈ Header.plannedData (sectorsFor c.size) c.rest
      ++ Header.plannedIndex (sectorsFor c.size) c.rest) :
      (c.after m count).get i = (c.staged m).get i :=
    get_after_of_drawn hc hv ((perm_drawn hv).mem_iff.mp (List.mem_cons_of_mem _ hi))
  have htable : table (c.after m count) c.sector = table (c.staged m) c.sector := by
    rw [table, table, hafter.1, hstored, Directory.held, Directory.held,
      Header.contents_congr hintact (fun i hi => hkeep (List.mem_append_right _ (hindex ▸ hi)))
        fun i hi => hkeep (List.mem_append_left _ (hdata ▸ hi))]
  rw [htable, table_staged hv hkind]

theorem slot?_after_new (hdir : c.entry.isDirectory = true) (j : Nat) :
    slot? (c.after m count) (Word.wide c.entry.sector) j = none := by
  have hsector : Word.wide c.entry.sector = c.sector := wide_sector hc hv
  rw [hsector, slot?, table_after_new hc hv ((Entry.isDirectory_named ..).mp hdir), Directory.empty]
  simp only [Array.getElem?_replicate]
  split <;> rfl

theorem names_after {o : Owner} {s : Nat} : Names (c.after m count) o s ↔
    Names m o s ∨ (o = .entry (Word.wide c.parent) c.slot ∧ s = c.sector) := by
  rw [names_insert hv.parent hv.slot_free (slot?_after hc hv) (slot?_after_new hc hv)]
  have hsector : Word.wide c.entry.sector = c.sector := wide_sector hc hv
  rw [hsector]

theorem reached_after {d : Nat} : Reached (c.after m count) d ↔
    Reached m d ∨ (c.kind = .directory ∧ d = c.sector) := by
  rw [reached_insert hv.parent hv.slot_free (slot?_after hc hv) (slot?_after_new hc hv)]
  have hsector : Word.wide c.entry.sector = c.sector := wide_sector hc hv
  rw [hsector, entry, Entry.isDirectory_named]

theorem perm_after : (c.sector :: ((Header.stored (c.after m count) c.sector).data (c.after m count)
    ++ (Header.stored (c.after m count) c.sector).index (c.after m count))).Perm c.drawn := by
  obtain ⟨hstored, -, -, hdata, hindex⟩ := facts_of_held hv (held_after hc hv)
  rw [hstored, hdata, hindex]
  exact perm_drawn hv

theorem owns_after {o : Owner} {r : Role} {i : Nat} : Owns (c.after m count) o r i ↔ Owns m o r i ∨
    (o = .entry (Word.wide c.parent) c.slot ∧ r.sector? (c.after m count) c.sector = some i) := by
  have hframed := framed_after hc hv
  constructor
  · rintro ⟨s, hs, hr⟩
    rcases (names_after hc hv).mp hs with hs | ⟨rfl, rfl⟩
    · exact Or.inl ⟨s, hs, (hframed.sector?_eq hs r).symm.trans hr⟩
    · exact Or.inr ⟨rfl, hr⟩
  · rintro (⟨s, hs, hr⟩ | ⟨rfl, hr⟩)
    · exact ⟨s, (names_after hc hv).mpr (Or.inl hs), (hframed.sector?_eq hs r).trans hr⟩
    · exact ⟨c.sector, (names_after hc hv).mpr (Or.inr ⟨rfl, rfl⟩), hr⟩

theorem mem_drawn_iff {i : Nat} :
    i ∈ c.drawn ↔ ∃ r : Role, r.sector? (c.after m count) c.sector = some i := by
  rw [Role.exists_sector?_iff]
  exact (perm_after hc hv).mem_iff.symm

theorem within_script : (c.script m count).Within count := by
  obtain ⟨o, -, ho⟩ := exists_names hv.parent
  refine Script.within_append.mpr ⟨?_, Script.within_append.mpr ⟨fun t ht => ?_, fun t ht => ?_⟩⟩
  · refine Script.within_append.mpr ⟨fun t ht => ?_, fun t ht =>
      lt_of_drawn hv (mem_blankScript hv ht)⟩
    have hwrite : ∃ s bytes, t = .write s bytes := by
      rcases List.mem_append.mp ht with ht | ht
      · exact Header.Fits.mem_fillScript ht
      · exact ⟨_, _, List.mem_singleton.mp ht⟩
    obtain ⟨s, bytes, rfl⟩ := hwrite
    exact lt_of_drawn hv (targets_fileScript_subset hv (Script.mem_targets ht))
  · exact hc.sectors_lt ho (Header.mem_writeScript 0 _ (hc.intact _ _ ho) ht)
  · exact hc.sectors_lt .map (Header.mem_writeScript 0 _ (hc.intact _ _ .map) ht)

theorem size_after : (c.after m count).size = m.size := by
  rw [← medium_script, Script.size_medium (within_script hc hv) hc.covered]

/-- The tree with the new file is well formed. -/
theorem consistent_after : Consistent (c.after m count) count where
  covered := by
    rw [size_after hc hv]
    exact hc.covered
  intact o s hs := by
    rcases (names_after hc hv).mp hs with hs | ⟨-, rfl⟩
    · exact (framed_after hc hv).intact hs (hc.intact o s hs)
    · obtain ⟨hstored, hintact, -⟩ := facts_of_held hv (held_after hc hv)
      rw [hstored]
      exact hintact
  map_length := by
    rw [(framed_after hc hv).stored_eq .map]
    exact hc.map_length
  directory_length d hd := by
    rcases (reached_after hc hv).mp hd with hd | ⟨hkind, rfl⟩
    · obtain ⟨o, -, ho⟩ := exists_names hd
      rw [(framed_after hc hv).stored_eq ho]
      exact hc.directory_length d hd
    · rw [(facts_of_held hv (held_after hc hv)).1, header, hv.fits.length_planned, hv.kind hkind]
  unique o r o' r' i ho ho' := by
    have hnew {o : Owner} {r r' : Role} (ho : Owns m o r i)
        (hr' : r'.sector? (c.after m count) c.sector = some i) : False :=
      not_owns_of_drawn hc hv ((mem_drawn_iff hc hv).mpr ⟨r', hr'⟩) o r ho
    rcases (owns_after hc hv).mp ho with ho | ⟨rfl, hr⟩
    · rcases (owns_after hc hv).mp ho' with ho' | ⟨rfl, hr'⟩
      · exact hc.unique o r o' r' i ho ho'
      · exact (hnew ho hr').elim
    · rcases (owns_after hc hv).mp ho' with ho' | ⟨rfl, hr'⟩
      · exact (hnew ho' hr).elim
      · have hnodup := (perm_after hc hv).nodup_iff.mpr (nodup_drawn hv)
        exact ⟨rfl, Role.sector?_injective hnodup hr hr'⟩
  tidy := by
    rw [bitmap_after hc hv]
    exact SectorMap.tidy_setAll hc.tidy (fun i hi => lt_of_drawn hv hi) true
  bit_iff i := by
    rw [bitmap_after hc hv, map, SectorMap.bit_setAll (fun i hi => lt_of_drawn hv hi)]
    by_cases hi : i ∈ c.drawn
    · rw [if_pos hi]
      obtain ⟨r, hr⟩ := (mem_drawn_iff hc hv).mp hi
      exact ⟨fun _ => ⟨_, r, (owns_after hc hv).mpr (Or.inr ⟨rfl, hr⟩)⟩, fun _ => rfl⟩
    · rw [if_neg hi, hc.bit_iff]
      refine ⟨fun ⟨o, r, ho⟩ => ⟨o, r, (owns_after hc hv).mpr (Or.inl ho)⟩, fun ⟨o, r, ho⟩ => ?_⟩
      rcases (owns_after hc hv).mp ho with ho | ⟨-, hr⟩
      · exact ⟨o, r, ho⟩
      · exact absurd ((mem_drawn_iff hc hv).mpr ⟨r, hr⟩) hi

end Commit

end Creation

end IndexedDisk
