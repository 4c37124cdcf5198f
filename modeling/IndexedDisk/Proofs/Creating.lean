import IndexedDisk.Proofs.Creation

/-!
# Requests that make a file

What becomes of such a request is known before it is made: `Creation.plan` says where the file goes,
or why there can be none. On a well-formed tree the request reads some sectors, and then it does
what is planned or is refused as planned (`performs_createEntry`).
-/

open IndexedDisk.Tree IndexedDisk.OpenFile

namespace IndexedDisk

variable {m : Medium} {count : Nat}

namespace Volume

theorem follows_newHeader {map : SectorMap} {size : Nat} (hmap : map.Tidy)
    (hf : Header.Fits size map.free) :
    Follows m count (newHeader map size) (Header.fillScript (sectorsFor size) map.free)
      (.ok (map.setAll
        (map.free.take (sectorsFor size + indexBlocksFor (sectorsFor size))) true,
        Header.planned size map.free)) :=
  Follows.bind_nil (Header.follows_allocate hmap hf) (Follows.pure _)

theorem answers_newHeader_tooLarge {map : SectorMap} {size : Nat} (hsize : maxFileSize < size) :
    Answers m count (newHeader map size) (.error (.refused (.fileTooLarge size))) :=
  Answers.of_nil (Follows.bind_error (Header.follows_allocate_tooLarge hsize))

theorem answers_newHeader_noSpace {map : SectorMap} {size : Nat} (hsize : size ≤ maxFileSize)
    (hmap : map.Tidy)
    (hroom : map.free.length < sectorsFor size + indexBlocksFor (sectorsFor size)) :
    Answers m count (newHeader map size) (.error (.refused .noSpace)) :=
  Answers.of_nil (Follows.bind_error (Header.follows_allocate_noSpace hsize hmap hroom))

end Volume

namespace Tree

theorem slot?_eq_none {d i : Nat} (hi : i < (table m d).slots.size)
    (hused : (table m d).slots[i].inUse = false) : slot? m d i = none := by
  rw [slot?, Array.getElem?_eq_getElem hi, Option.filter_some, hused]
  rfl

theorem slot?_ne_none {d i : Nat} (hi : i < (table m d).slots.size)
    (hused : (table m d).slots[i].inUse = true) : slot? m d i ≠ none := by
  rw [slot?, Array.getElem?_eq_getElem hi, Option.filter_some, hused]
  exact Option.some_ne_none _

namespace Consistent

variable {sector : Nat} {rest : List Nat} (hc : Consistent m count)
  (hfree : (bitmap m count).free = sector :: rest)
include hc hfree

theorem tidy_drawn : ((bitmap m count).setBit sector true).Tidy := by
  have hone : ∀ i ∈ [sector], i < (bitmap m count).size := by
    intro i hi
    rw [List.mem_singleton.mp hi]
    exact SectorMap.lt_of_mem_free (hfree ▸ List.mem_cons_self ..)
  exact SectorMap.tidy_setAll hc.tidy hone true

theorem fits {size : Nat} (hsize : size ≤ maxFileSize)
    (hroom : sectorsFor size + indexBlocksFor (sectorsFor size) ≤ rest.length) :
    Header.Fits size rest where
  size_le := hsize
  room := hroom
  small i hi := by
    have hle := hc.count_le
    have hlt : i < count := SectorMap.lt_of_mem_free (hfree ▸ List.mem_cons_of_mem _ hi)
    simp only [maxFileSize, maxFileSectors, sectorSize, directPointers, blockPointers] at hle
    omega
  nodup := by
    have hnodup := SectorMap.nodup_free (bitmap m count)
    rw [hfree] at hnodup
    exact (List.nodup_cons.mp hnodup).2

end Consistent

end Tree

namespace Creation

/-- Where the new file goes that is asked for, or why there can be none. -/
def plan (m : Medium) (count : Nat) (path : String) (size : Nat) (kind : EntryKind) :
    Except Refusal Creation :=
  match Path.splitLast path with
  | .error cause => .error cause
  | .ok (parents, name) =>
    match walk (table m) rootSector [] parents with
    | .error cause => .error cause
    | .ok parent =>
      if ((table m (Word.wide parent)).find? name).isSome then .error (.alreadyExists path)
      else
        match (bitmap m count).free with
        | [] => .error .noSpace
        | sector :: rest =>
          match (table m (Word.wide parent)).add name (Word.ofNat sector) kind with
          | .error cause => .error cause
          | .ok _ =>
            if maxFileSize < size then .error (.fileTooLarge size)
            else if rest.length < sectorsFor size + indexBlocksFor (sectorsFor size) then
              .error .noSpace
            else
              .ok {
                parent
                slot := ((table m (Word.wide parent)).slots.findIdx? (! ·.inUse)).getD 0
                name, kind, size, sector, rest }

/-- Where a new directory goes. Its path must start at the root. -/
def planDirectory (m : Medium) (count : Nat) (path : String) : Except Refusal Creation :=
  if path.toList.head? = some '/' then plan m count path directoryFileSize .directory
  else .error (.invalidPath (.notAbsolute path))

section

variable {c : Creation} {path : String} (hc : Consistent m count)
include hc

/-- What is planned can be done, and is what was asked for. -/
theorem serves_of_plan {size : Nat} {kind : EntryKind}
    (hkind : kind = .directory → size = directoryFileSize)
    (h : plan m count path size kind = .ok c) : c.Serves m count path size kind := by
  unfold plan at h
  split at h
  · cases h
  rename_i parents name hsplit
  split at h
  · cases h
  rename_i parent hwalk
  split at h
  · cases h
  split at h
  · cases h
  rename_i sector rest hfree
  split at h
  · cases h
  rename_i d hadd
  split at h
  · cases h
  rename_i hsize
  split at h
  · cases h
  rename_i hroom
  obtain ⟨slot, hslot, ⟨hlt, hunused, hfirst⟩, -⟩ := Directory.add_eq_ok hadd
  obtain rfl := Except.ok.inj h
  rw [hslot, Option.getD_some]
  refine ⟨?_, ⟨parents, hsplit, hwalk⟩, rfl, rfl⟩
  exact {
    parent := reached_walk .root hwalk
    slot_lt := size_table m _ ▸ hlt
    slot_free := slot?_eq_none hlt hunused
    slot_first := fun j hj => slot?_ne_none (Nat.lt_trans hj hlt) (hfirst j hj)
    free := hfree
    fits := hc.fits hfree (Nat.le_of_not_lt hsize) (Nat.le_of_not_lt hroom)
    kind := hkind }

theorem serves_of_planFile {size : Nat} (h : plan m count path size .file = .ok c) :
    c.Serves m count path size .file :=
  serves_of_plan hc nofun h

theorem serves_of_planDirectory (h : planDirectory m count path = .ok c) :
    c.Serves m count path directoryFileSize .directory := by
  unfold planDirectory at h
  split at h
  · exact serves_of_plan hc (fun _ => rfl) h
  · cases h

omit hc in
theorem find?_eq_none_of_plan {size : Nat} {kind : EntryKind}
    (hleads : LeadsTo m path c.parent c.name) (h : plan m count path size kind = .ok c) :
    (table m (Word.wide c.parent)).find? c.name = none := by
  obtain ⟨parents, hsplit, hwalk⟩ := hleads
  unfold plan at h
  rw [hsplit] at h
  dsimp only at h
  rw [hwalk] at h
  dsimp only at h
  split at h
  · cases h
  · rename_i hnone
    simpa using hnone

end

end Creation

namespace Creation

variable {c : Creation} (hc : Consistent m count) (hv : c.Valid m count)
include hc hv

theorem follows_blank (hkind : c.kind = .directory) :
    Follows (c.fileScript.medium m) count (Volume.storeBlank (Word.ofNat c.sector))
      (c.blankScript m) (.ok ()) := by
  obtain ⟨hstored, hintact, hseparate, -, -⟩ := facts_of_held hv (held_made hv)
  have hopen : Follows (c.fileScript.medium m) count (OpenFile.openAt (Word.ofNat c.sector))
      [.read c.sector] (.ok { sector := Word.ofNat c.sector, header := c.header }) := by
    have hfetch : Follows (c.fileScript.medium m) count (Header.fetch (Word.ofNat c.sector)) _ _ :=
      (Follows.readSector _).map
    have hheader : Header.ofSector ((c.fileScript.medium m).get c.sector) = c.header := hstored
    rw [wide_sector hc hv, hheader] at hfetch
    exact hfetch.map
  have hlength : c.header.length = Directory.fileSize (Directory.empty directorySlots).size := by
    rw [header, hv.fits.length_planned, hv.kind hkind]
    simp [Directory.empty, Directory.size, Directory.fileSize]
  rw [blankScript, if_pos hkind]
  exact hopen.bind (Directory.follows_store
    (f := { sector := Word.ofNat c.sector, header := c.header })
    (Directory.empty directorySlots) hintact hseparate (Nat.le_of_eq hlength.symm)
    (fun _ _ => rfl) fun _ _ => rfl)

theorem follows_commit : Follows (c.staged m) count (do
      (c.directory m).store (opened m c.parent)
      (c.map m count).store (Volume.on m).mapFile
      return Word.ofNat c.sector) (c.directoryScript m ++ c.mapScript m count)
      (.ok (Word.ofNat c.sector)) := by
  obtain ⟨o, -, ho⟩ := exists_names hv.parent
  have hsame := sameTree_staged hc hv
  have hlength : (opened m c.parent).header.length = Directory.fileSize (c.directory m).size := by
    rw [size_directory]
    exact hc.directory_length _ hv.parent
  have hlength' : (Volume.on m).mapFile.header.length
      = SectorMap.imageSize (c.map m count).size := by
    rw [size_map]
    exact hc.map_length
  have hdirectory : Follows (c.staged m) count ((c.directory m).store (opened m c.parent))
      (c.directoryScript m) (.ok ()) :=
    Directory.follows_store (f := opened m c.parent) (c.directory m) (hc.intact _ _ ho)
      (hc.separate ho) (Nat.le_of_eq hlength.symm) (hsame.framed _ _ ho).2
      (hsame.directory _ hv.parent)
  have hmapStore : Follows (c.entered m) count ((c.map m count).store (Volume.on m).mapFile)
      (c.mapScript m count) (.ok ()) := by
    exact SectorMap.follows_store (f := (Volume.on m).mapFile) (c.map m count)
      (hc.intact _ _ .map) (hc.separate .map) (Nat.le_of_eq hlength'.symm)
      (fun i hi => get_entered_of_map hc hv (List.mem_append_left _ hi))
      (fun i hi => get_entered_of_map hc hv (List.mem_append_right _ hi))
  exact hdirectory.bind (hmapStore.bind_nil (Follows.pure _))

theorem follows_rest : Follows (c.fileScript.medium m) count (do
      if c.kind = .directory then Volume.storeBlank (Word.ofNat c.sector) else pure ()
      (c.directory m).store (opened m c.parent)
      (c.map m count).store (Volume.on m).mapFile
      return Word.ofNat c.sector)
      (c.blankScript m ++ (c.directoryScript m ++ c.mapScript m count))
      (.ok (Word.ofNat c.sector)) := by
  have hstaged : Script.medium (c.fileScript.medium m) (c.blankScript m) = c.staged m := by
    rw [staged, stage, Script.medium_append]
  have hcommit := follows_commit hc hv
  rw [← hstaged] at hcommit
  by_cases hkind : c.kind = .directory
  · rw [if_pos hkind]
    exact Follows.bind (follows_blank hc hv hkind) hcommit
  · have hnone : c.blankScript m = [] := if_neg hkind
    rw [if_neg hkind]
    rw [hnone] at hcommit ⊢
    exact hcommit

theorem follows_steps : Follows m count (do
      let (map, header) ← Volume.newHeader ((bitmap m count).setBit c.sector true) c.size
      header.store (Word.ofNat c.sector)
      if c.kind = .directory then Volume.storeBlank (Word.ofNat c.sector) else pure ()
      (c.directory m).store (opened m c.parent)
      map.store (Volume.on m).mapFile
      return Word.ofNat c.sector) (c.script m count) (.ok (Word.ofNat c.sector)) := by
  have hfree : ((bitmap m count).setBit c.sector true).free = c.rest :=
    SectorMap.free_setBit hv.free
  have htidy := hc.tidy_drawn hv.free
  have hnew : Follows m count (Volume.newHeader ((bitmap m count).setBit c.sector true) c.size)
      (Header.fillScript (sectorsFor c.size) c.rest) (.ok (c.map m count, c.header)) := by
    have hnew : Follows m count (Volume.newHeader ((bitmap m count).setBit c.sector true) c.size)
        _ _ := Volume.follows_newHeader htidy (hfree.symm ▸ hv.fits)
    rw [hfree] at hnew
    exact hnew
  have hstore : Follows (Script.medium m (Header.fillScript (sectorsFor c.size) c.rest)) count
      (c.header.store (Word.ofNat c.sector)) [.write c.sector c.header.toSector] (.ok ()) := by
    unfold Header.store
    rw [wide_sector hc hv]
    exact Follows.writeSector _ _
  have hmade : Script.medium (Script.medium m (Header.fillScript (sectorsFor c.size) c.rest))
      [.write c.sector c.header.toSector] = c.fileScript.medium m := by
    rw [fileScript, Script.medium_append]
  have hrest := follows_rest hc hv
  rw [← hmade] at hrest
  have hscript : c.script m count = Header.fillScript (sectorsFor c.size) c.rest
      ++ ([.write c.sector c.header.toSector]
      ++ (c.blankScript m ++ (c.directoryScript m ++ c.mapScript m count))) := by
    rw [script, stage, fileScript]
    simp only [List.append_assoc]
  rw [hscript]
  refine Follows.bind hnew ?_
  dsimp only
  exact Follows.bind hstore hrest

end Creation

namespace Volume

theorem performs_drawn (hc : Consistent m count) {parent : Int32} {name : String} {size : Nat}
    {kind : EntryKind} {sector : Nat} {rest : List Nat} {planned : Except Refusal Creation}
    (hfree : (bitmap m count).free = sector :: rest)
    (hplanned : planned =
      match (table m (Word.wide parent)).add name (Word.ofNat sector) kind with
      | .error cause => .error cause
      | .ok _ =>
        if maxFileSize < size then .error (.fileTooLarge size)
        else if rest.length < sectorsFor size + indexBlocksFor (sectorsFor size) then
          .error .noSpace
        else
          .ok {
            parent
            slot := ((table m (Word.wide parent)).slots.findIdx? (! ·.inUse)).getD 0
            name, kind, size, sector, rest })
    (hvalid : ∀ c, planned = .ok c → c.Valid m count) :
    Performs m count (·.script m count) (fun c => Word.ofNat c.sector) planned (do
      let d ← (table m (Word.wide parent)).add name (Word.ofNat sector) kind
      let (map, header) ← newHeader ((bitmap m count).setBit sector true) size
      header.store (Word.ofNat sector)
      if kind = .directory then storeBlank (Word.ofNat sector) else pure ()
      d.store (opened m parent)
      map.store (Volume.on m).mapFile
      return Word.ofNat sector) := by
  subst hplanned
  cases hadd : (table m (Word.wide parent)).add name (Word.ofNat sector) kind with
  | error cause => exact Performs.error_bind rfl
  | ok d =>
    refine Performs.ok_bind rfl ?_
    have hrest : ((bitmap m count).setBit sector true).free = rest := SectorMap.free_setBit hfree
    rw [hadd] at hvalid
    dsimp only at hvalid ⊢
    by_cases hsize : maxFileSize < size
    · rw [if_pos hsize]
      exact Performs.refused (answers_newHeader_tooLarge hsize)
    rw [if_neg hsize] at hvalid ⊢
    by_cases hroom : rest.length < sectorsFor size + indexBlocksFor (sectorsFor size)
    · rw [if_pos hroom]
      exact Performs.refused (answers_newHeader_noSpace (Nat.le_of_not_lt hsize)
        (hc.tidy_drawn hfree) (hrest ▸ hroom))
    rw [if_neg hroom] at hvalid ⊢
    obtain ⟨slot, hslot, -, rfl⟩ := Directory.add_eq_ok hadd
    rw [hslot, Option.getD_some] at hvalid ⊢
    exact Performs.of_commits (Commits.of_follows (Creation.follows_steps hc (hvalid _ rfl)))

/-- A file is made as it is planned, or the request is refused. -/
theorem performs_createEntry (hc : Consistent m count) (path : String) {size : Nat}
    {kind : EntryKind} (hkind : kind = .directory → size = directoryFileSize) :
    Performs m count (·.script m count) (fun c => Word.ofNat c.sector)
      (Creation.plan m count path size kind) ((Volume.on m).createEntry path size kind) := by
  -- in the end the plan is known to be one that can be done
  have hvalid (c : Creation) (h : Creation.plan m count path size kind = .ok c) :
      c.Valid m count := (Creation.serves_of_plan hc hkind h).valid
  unfold createEntry
  unfold Creation.plan at hvalid ⊢
  cases hsplit : Path.splitLast path with
  | error cause => exact Performs.error_bind rfl
  | ok split =>
    obtain ⟨parents, name⟩ := split
    refine Performs.ok_bind rfl ?_
    have hresolve := hc.answers_resolve parents
    rw [hsplit] at hvalid
    dsimp only at hvalid ⊢
    cases hwalk : walk (table m) rootSector [] parents with
    | error cause =>
      rw [hwalk] at hresolve
      exact Performs.refused hresolve
    | ok parent =>
      rw [hwalk] at hresolve hvalid
      refine Performs.bind hresolve ?_
      dsimp only at hvalid ⊢
      by_cases hexists : ((table m (Word.wide parent)).find? name).isSome = true
      · rw [if_pos hexists, if_pos hexists]
        exact Performs.of_answers (Answers.refuse _)
      rw [if_neg hexists] at hvalid
      rw [if_neg hexists, if_neg hexists]
      refine Performs.bind hc.answers_fetchMap ?_
      cases hfree : (bitmap m count).free with
      | nil =>
        have hdraw : drawHeader (bitmap m count) = refuse .noSpace := by
          rw [drawHeader, SectorMap.take_eq_none_of_free hfree]
        rw [hdraw]
        exact Performs.refused (Answers.refuse _)
      | cons sector rest =>
        have hdraw : drawHeader (bitmap m count)
            = pure (sector, (bitmap m count).setBit sector true) := by
          rw [drawHeader, SectorMap.take_eq hfree]
        rw [hdraw]
        rw [hfree] at hvalid
        exact Performs.bind (Answers.pure _) (performs_drawn hc hfree rfl hvalid)

theorem performs_create (hc : Consistent m count) (path : String) (size : Nat) :
    Performs m count (·.script m count) (fun _ => ()) (Creation.plan m count path size .file)
      ((Volume.on m).create path size) :=
  Performs.map (fun _ => ()) (performs_createEntry hc path nofun)

theorem performs_createDirectory (hc : Consistent m count) (path : String) :
    Performs m count (·.script m count) (fun _ => ()) (Creation.planDirectory m count path)
      ((Volume.on m).createDirectory path) := by
  unfold createDirectory Creation.planDirectory
  by_cases habsolute : path.toList.head? = some '/'
  · rw [if_pos habsolute, if_pos habsolute]
    exact Performs.map (fun _ => ()) (performs_createEntry hc path fun _ => rfl)
  · rw [if_neg habsolute, if_neg habsolute]
    exact Performs.of_answers (Answers.refuse _)

end Volume

end IndexedDisk
