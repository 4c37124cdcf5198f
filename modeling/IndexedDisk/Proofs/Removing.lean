import IndexedDisk.Proofs.Making

/-!
# Removing files and directories

What is seen of a file once it has been removed (`Gone`): its entry is in use no more, no other slot
has changed, and its sectors are free. `removes_if_removable` says that a file is removed if its
path leads to it and it is not a directory with entries, and that nothing happens otherwise. What
has been made and is then removed leaves no trace that could be found (`Made.undone`).
-/

open IndexedDisk.Tree

namespace IndexedDisk

seal Tree.table

variable {m m' m'' : Medium} {count : Nat}

/--
A path with names, none of them relative, ends with one in the directory at `p`. The entry `e` that
it finds there is that of a file, or of a directory without entries.
-/
structure Removable (m : Medium) (path : String) (p : Int32) (name : String) (e : Entry) :
    Prop where
  absolute : ∀ name ∈ Path.names path, ¬ Path.isRelative name = true
  last : (Path.names path).getLast? = some name
  parents : walk (table m) rootSector [] (Path.names path).dropLast = .ok p
  find : (table m (Word.wide p)).find? name = some e
  blank : e.isDirectory = true → ∀ j, slot? m (Word.wide e.sector) j = none

/-- The entry `e` in a slot of the directory at `p` has been given up. -/
structure Gone (m m' : Medium) (count : Nat) (p : Int32) (slot : Nat) (e : Entry) : Prop where
  reached : Reached m (Word.wide p)
  entry : slot? m (Word.wide p) slot = some e
  unused : slot? m' (Word.wide p) slot = none
  /-- All other slots hold the same bytes. -/
  others : ∀ d, Reached m d → ∀ j, ¬ (d = Word.wide p ∧ j = slot) →
    (table m' d).slots[j]? = (table m d).slots[j]?
  /-- Of the sectors in use those of the entry are free. -/
  bit_eq_true_iff : ∀ i, (bitmap m' count).bit i = true ↔ (bitmap m count).bit i = true ∧
    i ∉ Word.wide e.sector :: ((Header.stored m (Word.wide e.sector)).data m
      ++ (Header.stored m (Word.wide e.sector)).index m)
  length_free : (bitmap m' count).free.length = (bitmap m count).free.length
    + (1 + ((Header.stored m (Word.wide e.sector)).data m).length
      + indexBlocksFor ((Header.stored m (Word.wide e.sector)).data m).length)

namespace Removal

variable {r : Removal} {path : String}

theorem Serves.gone (hc : Consistent m count) (hserves : r.Serves m path) :
    Gone m (r.after m count) count r.parent r.slot r.entry := by
  have hv := hserves.valid
  have hinUse := inUse_freed hc hv
  have hmem (i : Nat) : i ∈ r.freed m ↔ i ∈ Word.wide r.entry.sector :: ((r.header m).data m
      ++ (r.header m).index m) :=
    (mem_freed_iff hv).trans (exists_owns_iff (names hv))
  exact {
    reached := hv.parent
    entry := hv.slot
    unused := by rw [slot?_after hc hv _ hv.parent, if_pos ⟨rfl, rfl⟩]
    others := fun d hd j hj => by rw [getElem?_after hc hv d hd, if_neg hj]
    bit_eq_true_iff := fun i => by
      rw [bitmap_after hc hv, map, SectorMap.bit_setAll hinUse.lt]
      by_cases hi : i ∈ r.freed m
      · rw [if_pos hi]
        exact ⟨fun h => absurd h Bool.false_ne_true, fun h => absurd ((hmem i).mp hi) h.2⟩
      · rw [if_neg hi]
        exact (and_iff_left fun h => hi ((hmem i).mpr h)).symm
    length_free := by
      have hintact : (r.header m).Intact m := hc.intact _ _ (names hv)
      rw [bitmap_after hc hv, map, hinUse.length_free, freed, List.length_append,
        List.length_append, List.length_singleton, hintact.length_index, ← hintact.length_data]
      change _ = _ + (1 + ((r.header m).data m).length
        + indexBlocksFor ((r.header m).data m).length)
      omega }

theorem Serves.removable (hserves : r.Serves m path) :
    ∃ name, Removable m path r.parent name r.entry := by
  obtain ⟨hv, name, ⟨parents, hsplit, hwalk⟩, hfind⟩ := hserves
  obtain ⟨hrelative, hnames⟩ := Path.splitLast_eq_ok.mp hsplit
  refine ⟨name, List.find?_eq_none.mp hrelative, ?_, ?_, hfind, hv.blank⟩
  · rw [hnames, List.getLast?_concat]
  · rw [hnames, List.dropLast_concat, hwalk]

theorem exists_plan_iff : (∃ r, plan m path = .ok r) ↔ ∃ p name e, Removable m path p name e := by
  constructor
  · rintro ⟨r, hplan⟩
    obtain ⟨name, h⟩ := (serves_of_plan hplan).removable
    exact ⟨r.parent, name, r.entry, h⟩
  · rintro ⟨p, name, e, hremovable⟩
    obtain ⟨parents, hnames⟩ := List.getLast?_eq_some_iff.mp hremovable.last
    have hsplit : Path.splitLast path = .ok (parents, name) :=
      Path.splitLast_eq_ok.mpr ⟨List.find?_eq_none.mpr hremovable.absolute, hnames⟩
    have hwalk := hremovable.parents
    rw [hnames, List.dropLast_concat] at hwalk
    have hblank : isRemovable m e = true := isRemovable_iff.mpr hremovable.blank
    refine ⟨⟨p, ((table m (Word.wide p)).findIdx? name).getD 0, e⟩, ?_⟩
    unfold plan
    rw [hsplit]
    dsimp only
    rw [hwalk]
    dsimp only
    rw [planIn, hremovable.find]
    exact if_pos hblank

end Removal

/-! ## Making and removing -/

namespace Made

variable {path name : String} {size slot slot' : Nat} {kind : EntryKind} {p p' : Int32}
  {e e' : Entry} (hm : Made m m' count path size kind p name slot e)
include hm

theorem slot?_eq {d j : Nat} (hd : Reached m d) (hj : ¬ (d = Word.wide p ∧ j = slot)) :
    slot? m' d j = slot? m d j := by
  rw [slot?, slot?, hm.others d hd j hj]

theorem reached {d : Nat} (hd : Reached m d) : Reached m' d := by
  induction hd with
  | root => exact .root
  | child hd hi he ih =>
    refine .child ih ((hm.slot?_eq hd ?_).trans hi) he
    rintro ⟨rfl, rfl⟩
    rw [hm.unused] at hi
    cases hi

theorem removable : ∃ p name, Removable m' path p name e := by
  obtain ⟨p', name', ⟨parents, hsplit, hwalk⟩, hfind⟩ := found_eq_ok.mp hm.found_eq
  obtain ⟨hrelative, hnames⟩ := Path.splitLast_eq_ok.mp hsplit
  refine ⟨p', name', List.find?_eq_none.mp hrelative, ?_, ?_, hfind, fun hdir => ?_⟩
  · rw [hnames, List.getLast?_concat]
  · rw [hnames, List.dropLast_concat, hwalk]
  · refine hm.blank ?_
    rw [← hm.kind_eq]
    simpa [Entry.isDirectory] using hdir

theorem undone (hc : Consistent m' count) (hg : Gone m' m'' count p' slot' e) :
    SameEntries m m'' ∧ bitmap m'' count = bitmap m count := by
  have hnames : Names m' (.entry (Word.wide p) slot) (Word.wide e.sector) :=
    .entry (hm.reached hm.leads.reached) hm.entry
  -- an entry of this header is in one slot only
  obtain ⟨hp, rfl⟩ := Owner.entry.inj
    (hc.names_injective (.entry hg.reached hg.entry) hnames)
  refine ⟨sameEntries_of_slot? fun d hd j => ?_,
    SectorMap.ext_bit (by rw [size_bitmap, size_bitmap]) fun i => Bool.eq_iff_iff.mpr ?_⟩
  · by_cases hj : d = Word.wide p ∧ j = slot'
    · obtain ⟨rfl, rfl⟩ := hj
      rw [← hp, hg.unused, hp, hm.unused]
    · rw [← hm.slot?_eq hd hj, slot?, slot?, hg.others d (hm.reached hd) j (hp ▸ hj)]
  · have huses := hm.uses_iff i
    have htaken : ∀ j ∈ (bitmap m count).free.take
        (1 + sectorsFor size + indexBlocksFor (sectorsFor size)),
        j < (bitmap m count).size ∧ (bitmap m count).bit j = false := fun j hj =>
      SectorMap.mem_free.mp (List.mem_of_mem_take hj)
    rw [exists_owns_iff hnames] at huses
    rw [hg.bit_eq_true_iff, huses, hm.bitmap_eq, SectorMap.bit_setAll fun j hj => (htaken j hj).1]
    split
    · next hi => simp [hi, (htaken i hi).2]
    · next hi => simp [hi]

end Made

theorem Removable.unique {path name name' : String} {p p' : Int32} {e e' : Entry}
    (h : Removable m path p name e) (h' : Removable m path p' name' e') : e = e' := by
  obtain rfl := Option.some.inj (h.last.symm.trans h'.last)
  obtain rfl := Except.ok.inj (h.parents.symm.trans h'.parents)
  exact Option.some.inj (h.find.symm.trans h'.find)

/-! ## The request -/

/--
What comes of a request to remove the file at a path. It is refused if the file cannot be removed,
and nothing changes; or the file can be removed, and is gone afterwards.
-/
inductive Removes (fs : FileSystem) (path : String) : Prop
  | refused {cause} (hnot : ∀ p name e, ¬ Removable fs.disk.medium path p name e)
      (hresponse : ((Request.remove path).perform fs).1 = .failed (.refused cause))
      (hmedium : ((Request.remove path).perform fs).2.disk.medium = fs.disk.medium)
  | removed {p name slot e} (hremovable : Removable fs.disk.medium path p name e)
      (hresponse : ((Request.remove path).perform fs).1 = .done)
      (hgone : Gone fs.disk.medium ((Request.remove path).perform fs).2.disk.medium fs.disk.count p
        slot e)
      (hfree : ∃ n k, k = ((Header.stored fs.disk.medium (Word.wide e.sector)).data
          fs.disk.medium).length ∧ (Request.freeSectors.perform fs).1 = .counted n ∧
        (Request.freeSectors.perform ((Request.remove path).perform fs).2).1
          = .counted (n + (1 + k + indexBlocksFor k)))

/-- A request has been done, and nothing that can be found has changed. -/
structure Restores (fs : FileSystem) (result : Response × FileSystem) : Prop where
  response : result.1 = .done
  bitmap_eq : bitmap result.2.disk.medium fs.disk.count = bitmap fs.disk.medium fs.disk.count
  list_eq : ∀ path, ((Request.list path).perform result.2).1 = ((Request.list path).perform fs).1
  listTree_eq : ∀ path,
    ((Request.listTree path).perform result.2).1 = ((Request.listTree path).perform fs).1

namespace FileSystem.Healthy

variable {fs : FileSystem} (h : fs.Healthy) {path : String}
include h

theorem removes (path : String) : Removes fs path := by
  obtain ⟨⟨m, count, p⟩, v, t⟩ := fs
  have hfs' := h.step (.remove path) trivial
  have hfree := h.perform_freeSectors
  obtain ⟨hs, hp, hv⟩ := h
  dsimp only at hs hp hv hfree
  subst hv
  have hc := hs.consistent
  cases hplan : Removal.plan m path with
  | error cause =>
    obtain ⟨q, -, heq⟩ := Request.perform_remove_refused (t := t) hc hp hplan
    refine .refused (fun p name e hremovable => ?_) (congrArg Prod.fst heq) (by rw [heq])
    obtain ⟨r, hr⟩ := Removal.exists_plan_iff.mpr ⟨p, name, e, hremovable⟩
    rw [hplan] at hr
    cases hr
  | ok r =>
    obtain ⟨q, -, heq⟩ := Request.perform_remove (t := t) hc hp hplan
    have hserves := Removal.serves_of_plan hplan
    obtain ⟨name, hremovable⟩ := hserves.removable
    have hgone := hserves.gone hc
    have hfree' := hfs'.perform_freeSectors
    rw [heq] at hfree'
    refine .removed hremovable (by rw [heq]) (by rw [heq]; exact hgone)
      ⟨_, _, rfl, hfree, ?_⟩
    rw [heq, hfree']
    exact congrArg Response.counted hgone.length_free

theorem restores {r : Request} {obstacle : Nat → Refusal → Prop} {size : Nat} {kind : EntryKind}
    (hr : r.Admissible fs.disk.medium fs.opened) (hmakes : Makes fs r obstacle path size kind)
    (hdone : (r.perform fs).1 = .done) :
    Restores fs ((Request.remove path).perform (r.perform fs).2) := by
  have hfs' := h.step r hr
  have hfs'' := hfs'.step (.remove path) trivial
  have hcount := h.count_eq r
  have hcount' := hfs'.count_eq (.remove path)
  cases hmakes with
  | refused _ hresponse =>
    rw [hdone] at hresponse
    cases hresponse
  | made _ _ hmade =>
    obtain ⟨p, name, hremovable⟩ := hmade.removable
    cases hfs'.removes path with
    | refused hnot => exact absurd hremovable (hnot _ _ _)
    | removed hremovable' hresponse hgone =>
      obtain rfl := hremovable.unique hremovable'
      have hc := hfs'.sound.consistent
      rw [hcount] at hgone hc
      obtain ⟨hsame, hbitmap⟩ := hmade.undone hc hgone
      refine ⟨hresponse, hbitmap, fun path' => ?_, fun path' => ?_⟩
      · rw [hfs''.perform_list, h.perform_list, listed_congr hsame]
      · rw [hfs''.perform_listTree, h.perform_listTree, listedTree_congr hsame, hcount', hcount]

end FileSystem.Healthy

/--
**A file is removed if it can be.** In a file system that a run comes to, a path can be removed if
it has names, none of them relative, and leads to a file or to a directory without entries;
otherwise the request is refused and nothing changes. Only that entry disappears, and only its
sectors become free. A file or a directory that has just been made is removed without a trace.
-/
theorem removes_if_removable {fs : FileSystem} (h : Reachable fs) (path : String) :
    Removes fs path ∧
    (∀ size, ((Request.create path size).perform fs).1 = .done →
      Restores fs ((Request.remove path).perform ((Request.create path size).perform fs).2)) ∧
    (((Request.createDirectory path).perform fs).1 = .done →
      Restores fs ((Request.remove path).perform ((Request.createDirectory path).perform fs).2)) :=
  ⟨h.healthy.removes path,
    fun size => h.healthy.restores trivial (h.healthy.makes_create path size),
    h.healthy.restores trivial (h.healthy.makes_createDirectory path)⟩

/-- A file is made in a new volume and removed. -/
theorem removes_if_removable_first : ∃ fs, Reachable fs ∧
    ((Request.create "/a" 200).perform fs).1 = .done ∧
    Removes fs "/a" ∧
    (∀ size, ((Request.create "/a" size).perform fs).1 = .done →
      Restores fs ((Request.remove "/a").perform ((Request.create "/a" size).perform fs).2)) ∧
    (((Request.createDirectory "/a").perform fs).1 = .done →
      Restores fs
        ((Request.remove "/a").perform ((Request.createDirectory "/a").perform fs).2)) := by
  obtain ⟨m, p, hp, hc, hfs⟩ := exists_reachable_sixteen
  obtain ⟨q, -, hperform⟩ := Request.perform_create (t := {}) hc hp
    (Formatting.plan_sixteen m (by decide : 200 ≤ 1152))
  exact ⟨_, hfs, congrArg Prod.fst hperform, removes_if_removable hfs "/a"⟩

end IndexedDisk
