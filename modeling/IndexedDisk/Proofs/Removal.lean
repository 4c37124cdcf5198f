import IndexedDisk.Proofs.Creating
import IndexedDisk.Proofs.Lookup

/-!
# What removing a file does

A `Removal` says which entry is given up. The sector map is written first and the directory second;
nothing else is written. On a well-formed tree the request does what `Removal.plan` says, or is
refused as it says (`performs_remove`), and the tree is well formed without the file
(`consistent_after`).
-/

open IndexedDisk.Tree IndexedDisk.OpenFile

namespace IndexedDisk

/-- Which entry is given up. -/
structure Removal where
  /-- The header of the directory. -/
  parent : Int32
  /-- The slot of the entry. -/
  slot : Nat
  entry : Entry

namespace Removal

variable (r : Removal) (m : Medium) (count : Nat)

/-- The header of the file. -/
def header : Header := Header.stored m (Word.wide r.entry.sector)

/-- The sectors of the file. -/
def freed : List Nat :=
  (r.header m).data m ++ (r.header m).index m ++ [Word.wide r.entry.sector]

/-- The sector map with the sectors of the file free. -/
def map : SectorMap := (bitmap m count).setAll (r.freed m) false

/-- The directory without the entry. -/
def directory : Directory := ⟨(table m (Word.wide r.parent)).slots.modify r.slot .retired⟩

/-- The sectors are given back. -/
def mapScript : Script :=
  (Header.stored m (Word.wide mapSector)).writeScript m 0 (r.map m count).image

/-- The entry is given up. -/
def directoryScript : Script :=
  (Header.stored m (Word.wide r.parent)).writeScript m 0 (r.directory m).image

/-- All that is done to remove the file. -/
def script : Script := r.mapScript m count ++ r.directoryScript m

/-- The file can be removed. -/
structure Valid : Prop where
  parent : Reached m (Word.wide r.parent)
  slot : slot? m (Word.wide r.parent) r.slot = some r.entry
  blank : r.entry.isDirectory = true → ∀ j, slot? m (Word.wide r.entry.sector) j = none

/-- The file is the one that a path names. -/
structure Serves (path : String) : Prop where
  valid : r.Valid m
  leads : ∃ name, LeadsTo m path r.parent name ∧
    (table m (Word.wide r.parent)).find? name = some r.entry

/-- The medium once the sectors are given back. -/
def mapped : Medium := (r.mapScript m count).medium m

/-- The medium once the file is removed. -/
def after : Medium := (r.directoryScript m).medium (r.mapped m count)

variable {r m count}

theorem medium_script : (r.script m count).medium m = r.after m count := by
  rw [script, Script.medium_append]
  rfl

variable (hc : Consistent m count) (hv : r.Valid m)
include hc hv

omit hc in
theorem names : Names m (.entry (Word.wide r.parent) r.slot) (Word.wide r.entry.sector) :=
  .entry hv.parent hv.slot

omit hc hv in
theorem size_directory : (r.directory m).size = directorySlots := by
  rw [directory, Directory.size, Array.size_modify, size_table]

omit hc hv in
@[simp] theorem size_map : (r.map m count).size = count := by
  rw [map, SectorMap.size_setAll, size_bitmap]

omit hc in
theorem mem_freed_iff {i : Nat} :
    i ∈ r.freed m ↔ ∃ a, Owns m (.entry (Word.wide r.parent) r.slot) a i := by
  rw [exists_owns_iff (names hv), freed, header, List.mem_append, List.mem_singleton, List.mem_cons,
    or_comm]

theorem inUse_freed : (bitmap m count).InUse (r.freed m) where
  nodup := by
    refine List.nodup_append.mpr ⟨hc.separate (names hv), by simp, ?_⟩
    rintro i hi _ hi' rfl
    rw [List.mem_singleton.mp hi'] at hi
    exact hc.header_not_mem (names hv) hi
  lt i hi := by
    obtain ⟨a, ha⟩ := (mem_freed_iff hv).mp hi
    exact hc.owns_lt ha
  bit i hi := by
    obtain ⟨a, ha⟩ := (mem_freed_iff hv).mp hi
    exact (hc.bit_iff i).mpr ⟨_, a, ha⟩

/-! ## The change to the medium -/

omit hv in
theorem get_mapped {i : Nat} (hi : i ∉ (Header.stored m (Word.wide mapSector)).data m) :
    (r.mapped m count).get i = m.get i :=
  hc.get_write .map hi 0 _

theorem get_after {i : Nat} (hi : i ∉ (Header.stored m (Word.wide r.parent)).data m) :
    (r.after m count).get i = (r.mapped m count).get i := by
  obtain ⟨o, -, ho⟩ := exists_names hv.parent
  exact hc.get_write ho hi 0 _

theorem get_mapped_of_parent {i : Nat}
    (hi : i ∈ (Header.stored m (Word.wide r.parent)).index m
      ++ (Header.stored m (Word.wide r.parent)).data m) : (r.mapped m count).get i = m.get i := by
  obtain ⟨o, hmap, ho⟩ := exists_names hv.parent
  refine get_mapped hc fun hd => ?_
  rcases List.mem_append.mp hi with hi | hi
  · obtain ⟨k, hk⟩ := owns_index ho hi
    obtain ⟨k', hk'⟩ := (hc.role_of_mem_data .map hd hk).2
    cases hk'
  · exact hc.data_disjoint ho .map hmap hi hd

theorem rewritten_after : Rewritten m (r.after m count) count (Word.wide r.parent) (r.directory m)
    (r.map m count) where
  keeps i o a hi hdata hmap := by rw [get_after hc hv hdata, get_mapped hc hmap]
  directory := by
    obtain ⟨o, hmap, ho⟩ := exists_names hv.parent
    have hsize := size_directory (r := r) (m := m)
    have hheld := Directory.held_store (r.directory m) (hc.intact _ _ ho) (hc.separate ho)
      (hsize ▸ Nat.le_of_eq (hc.directory_length _ hv.parent).symm)
      (fun i hi => get_mapped_of_parent hc hv (List.mem_append_left _ hi))
      (fun i hi => get_mapped_of_parent hc hv (List.mem_append_right _ hi))
    rw [hsize] at hheld
    exact hheld
  map := by
    obtain ⟨o, hmap, ho⟩ := exists_names hv.parent
    have hheld := SectorMap.held_store (r.map m count) (hc.intact _ _ .map) (hc.separate .map)
      (by rw [size_map]; exact Nat.le_of_eq hc.map_length.symm) (fun _ _ => rfl) (fun _ _ => rfl)
    rw [size_map] at hheld
    have hindex : ∀ i ∈ (Header.stored m (Word.wide mapSector)).index m,
        (r.mapped m count).get i = m.get i := fun i hi =>
      get_mapped hc fun hd => (List.nodup_append.mp (hc.separate .map)).2.2 i hd i hi rfl
    rw [SectorMap.held, after, directoryScript, hc.contents_write ho .map (Ne.symm hmap) hindex]
    exact hheld

theorem framed_after : Framed m (r.after m count) :=
  (rewritten_after hc hv).framed hc hv.parent

theorem bitmap_after : bitmap (r.after m count) count = r.map m count :=
  (rewritten_after hc hv).bitmap_eq hc hv.parent

/-! ## The tree without the file -/

theorem getElem?_after (d : Nat) (hd : Reached m d) (j : Nat) :
    (table (r.after m count) d).slots[j]?
      = if d = Word.wide r.parent ∧ j = r.slot then some r.entry.retired
        else (table m d).slots[j]? := by
  by_cases hparent : d = Word.wide r.parent
  · subst hparent
    rw [(rewritten_after hc hv).table_eq hc hv.parent, directory, Array.getElem?_modify]
    by_cases hj : j = r.slot
    · subst hj
      rw [if_pos rfl, if_pos ⟨rfl, rfl⟩, (slot?_eq_some.mp hv.slot).1]
      rfl
    · rw [if_neg (Ne.symm hj), if_neg fun h => hj h.2]
  · rw [if_neg fun h => hparent h.1, (rewritten_after hc hv).table_of_ne hc hv.parent hd hparent]

theorem slot?_after (d : Nat) (hd : Reached m d) (j : Nat) :
    slot? (r.after m count) d j
      = if d = Word.wide r.parent ∧ j = r.slot then none else slot? m d j := by
  rw [slot?, getElem?_after hc hv d hd]
  split <;> rfl

theorem names_unique (o : Owner) (s : Nat) (hs : Names m o s) (heq : s = Word.wide r.entry.sector) :
    o = .entry (Word.wide r.parent) r.slot := by
  subst heq
  exact hc.names_injective hs (names hv)

theorem names_after {o : Owner} {s : Nat} : Names (r.after m count) o s ↔
    Names m o s ∧ o ≠ .entry (Word.wide r.parent) r.slot :=
  names_erase hv.parent hv.slot (slot?_after hc hv) hv.blank (names_unique hc hv)

theorem names_after_of_ne {o : Owner} {p : Int32} (hne : p ≠ r.entry.sector)
    (h : Names m o (Word.wide p)) : Names (r.after m count) o (Word.wide p) := by
  refine (names_after hc hv).mpr ⟨h, ?_⟩
  rintro rfl
  exact hne (Word.wide_injective (names_functional h (names hv)))

theorem reached_after {d : Nat} : Reached (r.after m count) d ↔
    Reached m d ∧ d ≠ Word.wide r.entry.sector :=
  reached_erase hv.parent hv.slot (slot?_after hc hv) hv.blank (names_unique hc hv)

theorem owns_after {o : Owner} {a : Role} {i : Nat} : Owns (r.after m count) o a i ↔
    Owns m o a i ∧ o ≠ .entry (Word.wide r.parent) r.slot := by
  have hframed := framed_after hc hv
  constructor
  · rintro ⟨s, hs, ha⟩
    obtain ⟨hs, hne⟩ := (names_after hc hv).mp hs
    exact ⟨⟨s, hs, (hframed.sector?_eq hs a).symm.trans ha⟩, hne⟩
  · rintro ⟨⟨s, hs, ha⟩, hne⟩
    exact ⟨s, (names_after hc hv).mpr ⟨hs, hne⟩, (hframed.sector?_eq hs a).trans ha⟩

theorem within_script : (r.script m count).Within count := by
  obtain ⟨o, -, ho⟩ := exists_names hv.parent
  refine Script.within_append.mpr ⟨fun t ht => ?_, fun t ht => ?_⟩
  · exact hc.sectors_lt .map (Header.mem_writeScript 0 _ (hc.intact _ _ .map) ht)
  · exact hc.sectors_lt ho (Header.mem_writeScript 0 _ (hc.intact _ _ ho) ht)

theorem size_after : (r.after m count).size = m.size := by
  rw [← medium_script, Script.size_medium (within_script hc hv) hc.covered]

/-- The tree without the file is well formed. -/
theorem consistent_after : Consistent (r.after m count) count where
  covered := by
    rw [size_after hc hv]
    exact hc.covered
  intact o s hs := by
    obtain ⟨hs, -⟩ := (names_after hc hv).mp hs
    exact (framed_after hc hv).intact hs (hc.intact o s hs)
  map_length := by
    rw [(framed_after hc hv).stored_eq .map]
    exact hc.map_length
  directory_length d hd := by
    obtain ⟨hd, -⟩ := (reached_after hc hv).mp hd
    obtain ⟨o, -, ho⟩ := exists_names hd
    rw [(framed_after hc hv).stored_eq ho]
    exact hc.directory_length d hd
  unique o a o' a' i ho ho' :=
    hc.unique o a o' a' i ((owns_after hc hv).mp ho).1 ((owns_after hc hv).mp ho').1
  tidy := by
    rw [bitmap_after hc hv]
    exact SectorMap.tidy_setAll hc.tidy (inUse_freed hc hv).lt false
  bit_iff i := by
    rw [bitmap_after hc hv, map, SectorMap.bit_setAll (inUse_freed hc hv).lt]
    by_cases hi : i ∈ r.freed m
    · rw [if_pos hi]
      refine ⟨nofun, fun ⟨o, a, ho⟩ => ?_⟩
      obtain ⟨ho, hne⟩ := (owns_after hc hv).mp ho
      obtain ⟨a', ha'⟩ := (mem_freed_iff hv).mp hi
      exact absurd (hc.unique _ _ _ _ _ ho ha').1 hne
    · rw [if_neg hi, hc.bit_iff]
      refine ⟨fun ⟨o, a, ho⟩ => ⟨o, a, (owns_after hc hv).mpr ⟨ho, ?_⟩⟩,
        fun ⟨o, a, ho⟩ => ⟨o, a, ((owns_after hc hv).mp ho).1⟩⟩
      rintro rfl
      exact hi ((mem_freed_iff hv).mpr ⟨a, ho⟩)

/-! ## The request -/

theorem follows_commit : Follows m count (do
      (r.map m count).store (Volume.on m).mapFile
      (r.directory m).store (opened m r.parent)
      return r.entry.sector) (r.script m count) (.ok r.entry.sector) := by
  obtain ⟨o, -, ho⟩ := exists_names hv.parent
  have hlength : (opened m r.parent).header.length = Directory.fileSize (r.directory m).size := by
    rw [size_directory]
    exact hc.directory_length _ hv.parent
  have hlength' : (Volume.on m).mapFile.header.length
      = SectorMap.imageSize (r.map m count).size := by
    rw [size_map]
    exact hc.map_length
  have hmap : Follows m count ((r.map m count).store (Volume.on m).mapFile)
      (r.mapScript m count) (.ok ()) :=
    SectorMap.follows_store (f := (Volume.on m).mapFile) (r.map m count) (hc.intact _ _ .map)
      (hc.separate .map) (Nat.le_of_eq hlength'.symm) (fun _ _ => rfl) fun _ _ => rfl
  have hdirectory : Follows (r.mapped m count) count ((r.directory m).store (opened m r.parent))
      (r.directoryScript m) (.ok ()) :=
    Directory.follows_store (f := opened m r.parent) (r.directory m) (hc.intact _ _ ho)
      (hc.separate ho) (Nat.le_of_eq hlength.symm)
      (fun i hi => get_mapped_of_parent hc hv (List.mem_append_left _ hi))
      (fun i hi => get_mapped_of_parent hc hv (List.mem_append_right _ hi))
  exact hmap.bind (hdirectory.bind_nil (Follows.pure _))

theorem answers_freeFile : Answers m count
    (Volume.freeFile (bitmap m count) (r.header m) r.entry.sector) (.ok (r.map m count)) :=
  ⟨_, fun _ hs => hc.sectors_lt (names hv) (List.mem_append_right _ hs),
    Volume.follows_freeFile (hc.intact _ _ (names hv)) (inUse_freed hc hv)⟩

end Removal

/-! ## What is planned -/

variable {m : Medium} {count : Nat}

theorem Tree.slot?_of_isEmpty {d : Nat} (h : (table m d).isEmpty = true) (j : Nat) :
    slot? m d j = none := by
  rw [Directory.isEmpty, Array.all_eq_true] at h
  by_cases hj : j < (table m d).slots.size
  · exact slot?_eq_none hj (by simpa using h j hj)
  · rw [slot?, Array.getElem?_eq_none (Nat.le_of_not_lt hj)]
    rfl

namespace Removal

/-- The entry can be given up: it names no directory, or one without entries. -/
def isRemovable (m : Medium) (e : Entry) : Bool :=
  if e.isDirectory then (table m (Word.wide e.sector)).isEmpty else true

theorem isRemovable_iff {e : Entry} : isRemovable m e = true ↔
    (e.isDirectory = true → ∀ j, slot? m (Word.wide e.sector) j = none) := by
  unfold isRemovable
  split
  · next hdir =>
    exact ⟨fun h _ => slot?_of_isEmpty h, fun h => Directory.isEmpty_iff.mpr (list_eq_nil (h hdir))⟩
  · next hdir => exact ⟨fun _ h => absurd h hdir, fun _ => rfl⟩

/-- Which entry is given up for a name in the directory `d`, whose header lies at `parent`. -/
def planIn (m : Medium) (path : String) (parent : Int32) (d : Directory) (name : String) :
    Except Refusal Removal :=
  match d.find? name with
  | none => .error (.notFound path)
  | some entry =>
    if isRemovable m entry = true then
      .ok { parent, slot := (d.findIdx? name).getD 0, entry }
    else .error (.directoryNotEmpty path)

/-- Which entry is given up for the file at a path, or why there can be none. -/
def plan (m : Medium) (path : String) : Except Refusal Removal :=
  match Path.splitLast path with
  | .error cause => .error cause
  | .ok (parents, name) =>
    match walk (table m) rootSector [] parents with
    | .error cause => .error cause
    | .ok parent => planIn m path parent (table m (Word.wide parent)) name

theorem serves_of_planIn {r : Removal} {path name : String} {parent : Int32} {d : Directory}
    (hleads : LeadsTo m path parent name) (hd : table m (Word.wide parent) = d)
    (h : planIn m path parent d name = .ok r) : r.Serves m path := by
  unfold planIn at h
  split at h
  · cases h
  rename_i e hfind
  obtain ⟨slot, hidx, hslot, hused, -⟩ := Directory.find?_eq_some hfind
  rw [hidx, Option.getD_some] at h
  split at h
  · rename_i hremovable
    obtain rfl := Except.ok.inj h
    exact ⟨⟨hleads.reached, slot?_eq_some.mpr ⟨hd ▸ hslot, hused⟩,
      isRemovable_iff.mp hremovable⟩, name, hleads, hd ▸ hfind⟩
  · cases h

theorem serves_of_plan {r : Removal} {path : String} (h : plan m path = .ok r) :
    r.Serves m path := by
  unfold plan at h
  split at h
  · cases h
  rename_i parents name hsplit
  split at h
  · cases h
  rename_i parent hwalk
  exact serves_of_planIn ⟨parents, hsplit, hwalk⟩ rfl h

end Removal

namespace Volume

variable {parent : Int32} {path name : String} {d : Directory} {e : Entry}

theorem performs_found (hc : Consistent m count) {r : Removal} (hparent : r.parent = parent)
    (hentry : r.entry = e) (hremove : d.remove name = .ok (r.directory m)) {b : Bool}
    (hserves : b = true → r.Serves m path) :
    Performs m count (Removal.script · m count) (·.entry.sector)
      (if b = true then .ok r else .error (.directoryNotEmpty path)) (do
      if b then do
        let map ← (Volume.on m).fetchMap
        let map ← freeFile map (Header.stored m (Word.wide e.sector)) e.sector
        let d ← d.remove name
        map.store (Volume.on m).mapFile
        d.store (opened m parent)
        return e.sector
      else refuse (.directoryNotEmpty path)) := by
  subst hparent hentry
  cases b with
  | false => exact Performs.of_answers (Answers.refuse _)
  | true =>
    have hcommit : Commits m count (do
        (r.map m count).store (Volume.on m).mapFile
        (r.directory m).store (opened m r.parent)
        return r.entry.sector) (r.script m count) (.ok r.entry.sector) :=
      Commits.of_follows (Removal.follows_commit hc (hserves rfl).valid)
    exact Performs.of_commits (Commits.bind hc.answers_fetchMap (Commits.bind
      (Removal.answers_freeFile hc (hserves rfl).valid) (Commits.ok_bind hremove hcommit)))

theorem performs_removeIn (hc : Consistent m count) (hleads : LeadsTo m path parent name)
    (hd : table m (Word.wide parent) = d) :
    Performs m count (Removal.script · m count) (·.entry.sector)
      (Removal.planIn m path parent d name) (do
      match d.find? name with
      | none => refuse (.notFound path)
      | some e =>
        let header ← Header.fetch e.sector
        let removable ← if e.isDirectory then isEmptyAt e.sector else pure true
        if removable then do
          let map ← (Volume.on m).fetchMap
          let map ← freeFile map header e.sector
          let d ← d.remove name
          map.store (Volume.on m).mapFile
          d.store (opened m parent)
          return e.sector
        else refuse (.directoryNotEmpty path)) := by
  have hserves (r : Removal) := Removal.serves_of_planIn (r := r) hleads hd
  unfold Removal.planIn at hserves ⊢
  cases hfind : d.find? name with
  | none => exact Performs.of_answers (Answers.refuse _)
  | some e =>
    rw [hfind] at hserves
    dsimp only at hserves ⊢
    obtain ⟨slot, hidx, hslot, hused, -⟩ := Directory.find?_eq_some hfind
    rw [hidx, Option.getD_some] at hserves ⊢
    have hslot : slot? m (Word.wide parent) slot = some e := slot?_eq_some.mpr ⟨hd ▸ hslot, hused⟩
    have hremove : d.remove name = .ok (Removal.directory ⟨parent, slot, e⟩ m) := by
      rw [Directory.remove, hidx, Removal.directory, hd]
    have hfetch : Answers m count (Header.fetch e.sector)
        (.ok (Header.stored m (Word.wide e.sector))) :=
      (Answers.readSector (hc.names_lt (.entry hleads.reached hslot))).map
    have hfound {b : Bool} (hb : Removal.isRemovable m e = b) :=
      performs_found (r := ⟨parent, slot, e⟩) hc rfl rfl hremove fun h =>
        hserves _ (if_pos (hb.trans h))
    refine Performs.bind hfetch ?_
    by_cases hdir : e.isDirectory = true
    · have hremovable : Removal.isRemovable m e = (table m (Word.wide e.sector)).isEmpty :=
        if_pos hdir
      have hempty : Answers m count (isEmptyAt e.sector)
          (.ok (table m (Word.wide e.sector)).isEmpty) :=
        (hc.answers_openAt (.child hleads.reached hslot hdir)).bind (Answers.pure _)
      rw [hremovable, if_pos hdir]
      exact Performs.bind hempty (hfound hremovable)
    · have hremovable : Removal.isRemovable m e = true := if_neg hdir
      rw [hremovable, if_neg hdir]
      exact Performs.bind (Answers.pure true) (hfound hremovable)

/-- A file is removed as it is planned, or the request is refused. -/
theorem performs_remove (hc : Consistent m count) (path : String) :
    Performs m count (Removal.script · m count) (·.entry.sector) (Removal.plan m path)
      ((Volume.on m).remove path) := by
  unfold remove Removal.plan
  cases hsplit : Path.splitLast path with
  | error cause => exact Performs.error_bind rfl
  | ok split =>
    obtain ⟨parents, name⟩ := split
    refine Performs.ok_bind rfl ?_
    have hresolve := hc.answers_resolve parents
    dsimp only
    cases hwalk : walk (table m) rootSector [] parents with
    | error cause =>
      rw [hwalk] at hresolve
      exact Performs.refused hresolve
    | ok parent =>
      -- the table is kept under a name, so that nothing tries to evaluate it
      obtain ⟨d, hd⟩ : ∃ d, table m (Word.wide parent) = d := ⟨_, rfl⟩
      rw [hwalk, delivered, hd] at hresolve
      dsimp only
      rw [hd]
      exact Performs.bind hresolve (performs_removeIn hc ⟨parents, hsplit, hwalk⟩ hd)

end Volume

end IndexedDisk
