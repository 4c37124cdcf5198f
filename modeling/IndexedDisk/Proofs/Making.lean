import IndexedDisk.Proofs.Listing
import IndexedDisk.Proofs.Obstacles

/-!
# Making files and directories

What is seen of a new file once it has been made (`Made`): its entry stands in the first slot that
was not in use, no other slot has changed, the sectors that it uses are the lowest free ones, and
its path leads to a file of the size that was asked for. `makes_unless_obstructed` says that this is
what happens when nothing is in the way, and that nothing happens otherwise.
-/

open IndexedDisk.Tree

namespace IndexedDisk

seal Tree.table

variable {m m' : Medium} {count : Nat}

namespace Tree

theorem walk_mono (h : ∀ d, Reached m d → ∀ name e, (table m d).find? name = some e →
      (table m' d).find? name = some e) {p q : Int32} {walked names : List String}
    (hp : Reached m (Word.wide p)) (hwalk : walk (table m) p walked names = .ok q) :
    walk (table m') p walked names = .ok q := by
  induction names generalizing p walked with
  | nil =>
    rw [walk] at hwalk ⊢
    exact hwalk
  | cons name rest ih =>
    cases he : (table m (Word.wide p)).find? name with
    | none =>
      rw [walk_none he] at hwalk
      cases hwalk
    | some e =>
      by_cases hdir : e.isDirectory = true
      · obtain ⟨i, hi, -⟩ := exists_slot he
        rw [walk_directory he hdir] at hwalk
        rw [walk_directory (h _ hp _ _ he) hdir, ih (.child hp hi hdir) hwalk]
      · rw [walk_file he hdir] at hwalk
        cases hwalk

end Tree

namespace Creation

variable {c : Creation} {path : String} {size : Nat} {kind : EntryKind}

theorem name_of_clear (hserves : c.Serves m count path size kind)
    (hclear : ∀ k cause, ¬ Obstacle m count path size k cause) :
    c.entry.name = c.name ∧ (table m (Word.wide c.parent)).find? c.name = none := by
  obtain ⟨parents, hsplit, -⟩ := hserves.leads
  have hlast : (Path.names path).getLast? = some c.name := by
    rw [(Path.splitLast_eq_ok.mp hsplit).2, List.getLast?_concat]
  refine ⟨Entry.name_named (Nat.le_of_not_lt fun h => hclear _ _ (.nameTooLong hlast h))
    (fun letter hletter h => hclear _ _ (.nul hlast ⟨letter, hletter, h⟩)) _ _, ?_⟩
  cases hfind : (table m (Word.wide c.parent)).find? c.name with
  | none => rfl
  | some e => exact absurd (.taken hserves.leads hfind) (hclear _ _)

variable (hc : Consistent m count) (hv : c.Valid m count) (hname : c.entry.name = c.name)
  (hnew : (table m (Word.wide c.parent)).find? c.name = none)
include hc hv hname hnew

theorem find?_after (d : Nat) (hd : Reached m d) (name : String) :
    (table (c.after m count) d).find? name
      = if d = Word.wide c.parent ∧ name = c.name then some c.entry
        else (table m d).find? name := by
  by_cases hparent : d = Word.wide c.parent
  · subst hparent
    have hlt : c.slot < (table m (Word.wide c.parent)).slots.size := by
      rw [size_table]
      exact hv.slot_lt
    have hfree : (table m (Word.wide c.parent)).slots[c.slot].inUse = false := by
      by_contra hused
      exact slot?_ne_none hlt (by simpa using hused) hv.slot_free
    have hfind := Directory.find?_setIfInBounds hlt hfree (e := c.entry) rfl (hname ▸ hnew) name
    rw [(rewritten_after hc hv).table_eq hc hv.parent, directory, hfind, hname]
    simp only [true_and]
  · rw [if_neg fun h => hparent h.1, (rewritten_after hc hv).table_of_ne hc hv.parent hd hparent]

theorem walk_after {names : List String} (h : walk (table m) rootSector [] names = .ok c.parent) :
    walk (table (c.after m count)) rootSector [] names = .ok c.parent := by
  refine walk_mono (fun d hd name e he => ?_) .root h
  rw [find?_after hc hv hname hnew d hd, if_neg]
  · exact he
  · rintro ⟨rfl, rfl⟩
    rw [hnew] at he
    cases he

theorem found_after (hleads : LeadsTo m path c.parent c.name) :
    found (c.after m count) path = .ok c.entry := by
  obtain ⟨parents, hsplit, hwalk⟩ := hleads
  have hfind := find?_after hc hv hname hnew _ hv.parent c.name
  rw [if_pos ⟨rfl, rfl⟩] at hfind
  unfold found
  rw [hsplit]
  dsimp only
  rw [walk_after hc hv hname hnew hwalk]
  dsimp only
  rw [foundIn, hfind]

theorem listed_after (hleads : LeadsTo m path c.parent c.name) (hkind : c.kind = .directory) :
    listed (c.after m count) path = .ok [] := by
  obtain ⟨parents, hsplit, hwalk⟩ := hleads
  obtain ⟨hrelative, hnames⟩ := Path.splitLast_eq_ok.mp hsplit
  have hdir : c.entry.isDirectory = true := (Entry.isDirectory_named ..).mpr hkind
  have hfind := find?_after hc hv hname hnew _ hv.parent c.name
  rw [if_pos ⟨rfl, rfl⟩] at hfind
  have hsplit' : Path.split path = .ok (parents ++ [c.name]) := by
    rw [Path.split, hrelative, hnames]
  unfold listed
  rw [hsplit']
  dsimp only
  rw [walk_append (walk_after hc hv hname hnew hwalk), walk_directory hfind hdir, walk]
  dsimp only
  rw [list_eq_nil (slot?_after_new hc hv hdir)]

end Creation

/--
A file of `size` bytes has been made at a path: `m` is the medium before and `m'` the one after. Its
entry `e` is in a slot of the directory at `p`.
-/
structure Made (m m' : Medium) (count : Nat) (path : String) (size : Nat) (kind : EntryKind)
    (p : Int32) (name : String) (slot : Nat) (e : Entry) : Prop where
  leads : LeadsTo m path p name
  slot_lt : slot < directorySlots
  unused : slot? m (Word.wide p) slot = none
  first : ∀ j < slot, slot? m (Word.wide p) j ≠ none
  entry : slot? m' (Word.wide p) slot = some e
  name_eq : e.name = name
  kind_eq : e.kind = kind
  /-- All other slots hold the same bytes. -/
  others : ∀ d, Reached m d → ∀ j, ¬ (d = Word.wide p ∧ j = slot) →
    (table m' d).slots[j]? = (table m d).slots[j]?
  /-- The lowest free sectors are in use. -/
  bitmap_eq : bitmap m' count = (bitmap m count).setAll ((bitmap m count).free.take
    (1 + sectorsFor size + indexBlocksFor (sectorsFor size))) true
  /-- These are what the new file consists of. -/
  uses_iff : ∀ i, (∃ a, Owns m' (.entry (Word.wide p) slot) a i) ↔
    i ∈ (bitmap m count).free.take (1 + sectorsFor size + indexBlocksFor (sectorsFor size))
  found_eq : found m' path = .ok e
  length_eq : (Header.stored m' (Word.wide e.sector)).length = size
  /-- A directory is empty at first. -/
  blank : kind = .directory → ∀ j, slot? m' (Word.wide e.sector) j = none
  listed_eq : kind = .directory → listed m' path = .ok []

theorem Entry.kind_named (name : String) (sector : Int32) (kind : EntryKind) :
    (named name sector kind).kind = kind := by
  cases kind <;> rfl

theorem Creation.drawn_eq {c : Creation} (hv : c.Valid m count) : c.drawn
    = (bitmap m count).free.take (1 + sectorsFor c.size + indexBlocksFor (sectorsFor c.size)) := by
  rw [hv.free, Nat.add_assoc, Nat.add_comm 1, List.take_succ_cons, drawn]

theorem Creation.Serves.made {c : Creation} {path : String} {size : Nat} {kind : EntryKind}
    (hc : Consistent m count) (hserves : c.Serves m count path size kind)
    (hclear : ∀ k cause, ¬ Obstacle m count path size k cause) :
    Made m (c.after m count) count path size kind c.parent c.name c.slot c.entry := by
  have hv := hserves.valid
  obtain ⟨hname, hnew⟩ := name_of_clear hserves hclear
  have hdrawn := drawn_eq hv
  rw [hserves.size_eq] at hdrawn
  have hsector : Word.wide c.entry.sector = c.sector := wide_sector hc hv
  exact {
    leads := hserves.leads
    slot_lt := hv.slot_lt
    unused := hv.slot_free
    first := hv.slot_first
    entry := by rw [slot?_after hc hv _ hv.parent, if_pos ⟨rfl, rfl⟩]
    name_eq := hname
    kind_eq := by rw [Creation.entry, Entry.kind_named, hserves.kind_eq]
    others := fun d hd j hj => by rw [getElem?_after hc hv d hd, if_neg hj]
    bitmap_eq := by rw [bitmap_after hc hv, Creation.map, hdrawn]
    uses_iff := fun i => by
      rw [← hdrawn, mem_drawn_iff hc hv]
      refine exists_congr fun a => (owns_after hc hv).trans ?_
      refine ⟨fun h => h.elim (fun h => ?_) (·.2), fun h => Or.inr ⟨rfl, h⟩⟩
      obtain ⟨s, hs, -⟩ := h
      obtain ⟨e, -, hi, -⟩ := names_entry_iff.mp hs
      rw [hv.slot_free] at hi
      cases hi
    found_eq := found_after hc hv hname hnew hserves.leads
    length_eq := by
      rw [hsector, (facts_of_held hv (held_after hc hv)).1, header, hv.fits.length_planned,
        hserves.size_eq]
    blank := fun hkind => slot?_after_new hc hv
      ((Entry.isDirectory_named ..).mpr (hserves.kind_eq.trans hkind))
    listed_eq := fun hkind =>
      listed_after hc hv hname hnew hserves.leads (hserves.kind_eq.trans hkind) }

theorem Creation.made_of_plan {c : Creation} {path : String} {size : Nat} (hc : Consistent m count)
    (hplan : plan m count path size .file = .ok c) :
    Made m (c.after m count) count path size .file c.parent c.name c.slot c.entry := by
  have hserves := serves_of_planFile hc hplan
  exact hserves.made hc (exists_plan_iff.mp ⟨c, hplan⟩)

/-! ## The two requests -/

/-- What is in the way of a directory. Its path must start at the root; else it is like a file. -/
inductive DirectoryObstacle (m : Medium) (count : Nat) (path : String) : Nat → Refusal → Prop
  | notAbsolute (h : path.toList.head? ≠ some '/') :
      DirectoryObstacle m count path 0 (.invalidPath (.notAbsolute path))
  | other {k cause} (h : Obstacle m count path directoryFileSize k cause) :
      DirectoryObstacle m count path (k + 1) cause

namespace Creation

variable {path : String}

theorem first_of_planDirectory {cause : Refusal} (h : planDirectory m count path = .error cause) :
    First (DirectoryObstacle m count path) cause := by
  unfold planDirectory at h
  split at h
  · next habsolute =>
    obtain ⟨k, hk, hclear⟩ := plan_eq_error_iff.mp h
    refine ⟨k + 1, .other hk, fun j hj cause hobstacle => ?_⟩
    cases hobstacle with
    | notAbsolute h => exact h habsolute
    | other h => exact hclear _ (Nat.lt_of_succ_lt_succ hj) _ h
  · next habsolute =>
    obtain rfl := Except.error.inj h
    exact ⟨0, .notAbsolute habsolute, nofun⟩

theorem clear_of_planDirectory {c : Creation} (h : planDirectory m count path = .ok c) (k : Nat)
    (cause : Refusal) : ¬ DirectoryObstacle m count path k cause := by
  unfold planDirectory at h
  split at h
  · next habsolute =>
    intro hobstacle
    cases hobstacle with
    | notAbsolute h => exact h habsolute
    | other hk => exact exists_plan_iff.mp ⟨c, h⟩ _ _ hk
  · cases h

end Creation

/--
What comes of a request for a file of `size` bytes. It is refused for the first thing that is in the
way, and nothing changes; or nothing is in the way, and the file is there afterwards.
-/
inductive Makes (fs : FileSystem) (r : Request) (obstacle : Nat → Refusal → Prop) (path : String)
    (size : Nat) (kind : EntryKind) : Prop
  | refused {cause} (hfirst : First obstacle cause)
      (hresponse : (r.perform fs).1 = .failed (.refused cause))
      (hmedium : (r.perform fs).2.disk.medium = fs.disk.medium)
  | made {p name slot e} (hclear : ∀ k cause, ¬ obstacle k cause)
      (hresponse : (r.perform fs).1 = .done)
      (hmade : Made fs.disk.medium (r.perform fs).2.disk.medium fs.disk.count path size kind p name
        slot e)
      (hopen : ∃ f fs', FileSystem.openPath path (r.perform fs).2 = .ok f fs' ∧
        f.sector = e.sector ∧ f.length = size ∧ f.position = 0)
      (hlist : kind = .directory → ((Request.list path).perform (r.perform fs).2).1 = .listed [])
      (hfree : ∃ n, (Request.freeSectors.perform (r.perform fs).2).1 = .counted n ∧
        (Request.freeSectors.perform fs).1
          = .counted (n + (1 + sectorsFor size + indexBlocksFor (sectorsFor size))))

section

variable {p : FaultPlan} {t : OpenTable} {r : Request} {obstacle : Nat → Refusal → Prop}
  {path : String} {size : Nat} {kind : EntryKind} {plan : Except Refusal Creation}
  {act : DiskM Unit} {act' : FileSystemM Unit}

theorem makes_of_performs (hs : Sound m count t) (hp : p.Faultless)
    (h : Performs m count (Creation.script · m count) (fun _ => ()) plan act)
    (hr : r.perform ⟨⟨m, count, p⟩, Volume.on m, t⟩
      = Request.respond (fun _ => .done) act' ⟨⟨m, count, p⟩, Volume.on m, t⟩)
    (hact' : act' ⟨⟨m, count, p⟩, Volume.on m, t⟩
      = (liftM act : FileSystemM Unit) ⟨⟨m, count, p⟩, Volume.on m, t⟩)
    (hadmissible : r.Admissible m t)
    (herror : ∀ cause, plan = .error cause → First obstacle cause)
    (hok : ∀ c, plan = .ok c → c.Serves m count path size kind ∧ ∀ k cause, ¬ obstacle k cause)
    (hsub : ∀ k cause, Obstacle m count path size k cause → ∃ k, obstacle k cause) :
    Makes ⟨⟨m, count, p⟩, Volume.on m, t⟩ r obstacle path size kind := by
  have hc := hs.consistent
  cases hplan : plan with
  | error cause =>
    obtain ⟨q, -, heq⟩ := Request.respond_refused (t := t) hp hc.covered h hplan hact'
    rw [← hr] at heq
    exact .refused (herror cause hplan) (by rw [heq]) (by rw [heq])
  | ok c =>
    obtain ⟨hserves, hclear⟩ := hok c hplan
    have hv := hserves.valid
    have hmade := hserves.made hc fun k cause hk =>
      let ⟨k, hk⟩ := hsub k cause hk
      hclear k cause hk
    obtain ⟨q, -, heq⟩ := Request.respond_made (t := t) hc hp h hplan hv hact'
    rw [← hr] at heq
    have hfs : FileSystem.Healthy ⟨⟨m, count, p⟩, Volume.on m, t⟩ := .of_sound hs hp
    have hfs' := hfs.step r hadmissible
    rw [heq] at hfs'
    refine .made hclear (by rw [heq]) (by rw [heq]; exact hmade) ?_ (fun hkind => ?_) ?_
    · rw [heq]
      obtain ⟨q', -, hopen⟩ := hfs'.openPath_eq path
      dsimp only at hopen
      rw [hmade.found_eq] at hopen
      exact ⟨_, _, hopen, rfl, hmade.length_eq, rfl⟩
    · rw [heq, hfs'.perform_list]
      dsimp only
      rw [hmade.listed_eq hkind]
      rfl
    · refine ⟨_, by rw [heq]; exact hfs'.perform_freeSectors, ?_⟩
      rw [hfs.perform_freeSectors]
      dsimp only
      have hle : (1 + sectorsFor size + indexBlocksFor (sectorsFor size))
          ≤ (bitmap m count).free.length := by
        by_contra hlt
        obtain ⟨k, hk⟩ := hsub _ _ (.noSpace (Nat.lt_of_not_le hlt))
        exact hclear _ _ hk
      rw [hmade.bitmap_eq, SectorMap.free_setAll, List.length_drop, Nat.sub_add_cancel hle]

end

namespace FileSystem.Healthy

variable {fs : FileSystem} (h : fs.Healthy) (path : String)
include h

theorem makes_create (size : Nat) : Makes fs (.create path size)
    (Obstacle fs.disk.medium fs.disk.count path size) path size .file := by
  obtain ⟨⟨m, count, p⟩, v, t⟩ := fs
  obtain ⟨hs, hp, hv⟩ := h
  dsimp only at hs hp hv ⊢
  subst hv
  have hc := hs.consistent
  exact makes_of_performs hs hp (Volume.performs_create hc path size) rfl
    (FileSystem.getVolume_bind (·.create path size)) trivial
    (fun cause => Creation.plan_eq_error_iff.mp)
    (fun c hplan => ⟨Creation.serves_of_planFile hc hplan,
      Creation.exists_plan_iff.mp ⟨c, hplan⟩⟩)
    fun k cause hk => ⟨k, hk⟩

theorem makes_createDirectory : Makes fs (.createDirectory path)
    (DirectoryObstacle fs.disk.medium fs.disk.count path) path directoryFileSize .directory := by
  obtain ⟨⟨m, count, p⟩, v, t⟩ := fs
  obtain ⟨hs, hp, hv⟩ := h
  dsimp only at hs hp hv ⊢
  subst hv
  have hc := hs.consistent
  exact makes_of_performs hs hp (Volume.performs_createDirectory hc path) rfl
    (FileSystem.getVolume_bind (·.createDirectory path)) trivial
    (fun cause => Creation.first_of_planDirectory)
    (fun c hplan => ⟨Creation.serves_of_planDirectory hc hplan,
      Creation.clear_of_planDirectory hplan⟩)
    fun k cause hk => ⟨k + 1, .other hk⟩

end FileSystem.Healthy

/--
**A file is made unless something is in the way.** In a file system that a run comes to, a request
for a file or for a directory is refused for the first of its obstacles, and the disk stays as it
is. If there is none, the entry goes into the first slot that is not in use and nothing else in any
directory changes; the lowest free sectors are taken, and the path leads to the new file.
-/
theorem makes_unless_obstructed {fs : FileSystem} (h : Reachable fs) (path : String) :
    (∀ size, Makes fs (.create path size) (Obstacle fs.disk.medium fs.disk.count path size) path
      size .file) ∧
    Makes fs (.createDirectory path) (DirectoryObstacle fs.disk.medium fs.disk.count path) path
      directoryFileSize .directory :=
  ⟨h.healthy.makes_create path, h.healthy.makes_createDirectory path⟩

/-- In a directory that has been made in a new volume there can be files and directories. -/
theorem makes_unless_obstructed_nested : ∃ fs, Reachable fs ∧
    (∀ size, Makes fs (.create "/d/f" size) (Obstacle fs.disk.medium fs.disk.count "/d/f" size)
      "/d/f" size .file) ∧
    Makes fs (.createDirectory "/d/f") (DirectoryObstacle fs.disk.medium fs.disk.count "/d/f")
      "/d/f" directoryFileSize .directory := by
  obtain ⟨m, q, -, -, hfs⟩ := exists_reachable_sixteen
  have hdirectory := hfs.perform (.createDirectory "/d") trivial
  exact ⟨_, hdirectory, makes_unless_obstructed hdirectory "/d/f"⟩

/-- A run can make a file in a new volume and open it. -/
theorem exists_reachable_open : ∃ fs f, Reachable fs ∧ fs.opened.find? 5 = some f ∧
    f.length = 200 := by
  obtain ⟨m, p, hp, hc, hfs⟩ := exists_reachable_sixteen
  have hplan := Formatting.plan_sixteen m (by decide : 200 ≤ 1152)
  have hmade := Creation.made_of_plan hc hplan
  obtain ⟨q, -, hcreate⟩ := Request.perform_create (t := {}) hc hp hplan
  have hfs' := hfs.perform (.create "/a" 200) trivial
  rw [hcreate] at hfs'
  have hpick : OpenTable.pick? {} [5] = some 5 := by decide
  obtain ⟨q', -, hopen⟩ := hfs'.healthy.perform_openFile hmade.found_eq hpick
  have hfs'' := hfs'.perform (.openFile "/a" [5]) trivial
  rw [hopen] at hfs''
  exact ⟨_, _, hfs'', OpenTable.find?_insert.trans (if_pos rfl), hmade.length_eq⟩

namespace Creation

theorem walk_after_new {m : Medium} {count : Nat} {c : Creation} (hc : Consistent m count)
    (hv : c.Valid m count) (hname : c.entry.name = c.name)
    (hnew : (table m (Word.wide c.parent)).find? c.name = none) (hkind : c.kind = .directory)
    {parents : List String} (hwalk : walk (table m) rootSector [] parents = .ok c.parent) :
    walk (table (c.after m count)) rootSector [] (parents ++ [c.name]) = .ok c.entry.sector := by
  have hdir : c.entry.isDirectory = true := (Entry.isDirectory_named ..).mpr hkind
  have hfind := find?_after hc hv hname hnew _ hv.parent c.name
  rw [if_pos ⟨rfl, rfl⟩] at hfind
  rw [walk_append (walk_after hc hv hname hnew hwalk), walk_directory hfind hdir, walk]

theorem plan_inside {m : Medium} {count size sector : Nat} {path path' name' : String}
    {parents : List String} {rest : List Nat} {c : Creation} (size' : Nat) (kind : EntryKind)
    (hc : Consistent m count)
    (hserves : c.Serves m count path size .directory)
    (hclear : ∀ k cause, ¬ Obstacle m count path size k cause)
    (hparents : Path.splitLast path = .ok (parents, c.name))
    (hsplit : Path.splitLast path' = .ok (parents ++ [c.name], name'))
    (hfree : (bitmap m count).free.drop (1 + sectorsFor size + indexBlocksFor (sectorsFor size))
      = sector :: rest)
    (hlength : ¬ maxNameLength < name'.utf8ByteSize)
    (hname' : Directory.isBadName name' = false) :
    plan (c.after m count) count path' size' kind =
      if maxFileSize < size' then .error (.fileTooLarge size')
      else if rest.length < sectorsFor size' + indexBlocksFor (sectorsFor size') then
        .error .noSpace
      else .ok
        { parent := c.entry.sector, slot := 0, name := name', kind, size := size', sector, rest } := by
  have hv := hserves.valid
  obtain ⟨hname, hnew⟩ := name_of_clear hserves hclear
  obtain ⟨parents', hparents', hwalk⟩ := hserves.leads
  rw [hparents] at hparents'
  cases hparents'
  refine plan_of_table_eq_empty hsplit
    (walk_after_new hc hv hname hnew hserves.kind_eq hwalk) ?_ ?_ hlength hname'
  · have hsector : Word.wide c.entry.sector = c.sector := wide_sector hc hv
    rw [hsector]
    exact table_after_new hc hv hserves.kind_eq
  · rw [bitmap_after hc hv, Creation.map, drawn_eq hv, SectorMap.free_setAll, hserves.size_eq]
    exact hfree

end Creation

/-- A run can make a directory in a new volume, and a file in it. -/
theorem exists_reachable_nested : ∃ fs, Reachable fs ∧ fs.disk.count = 16 ∧
    ((Request.createDirectory "/d").perform fs).1 = .done ∧
    ((Request.create "/d/f" 512).perform ((Request.createDirectory "/d").perform fs).2).1 = .done ∧
    Reachable (fs.run [.createDirectory "/d", .create "/d/f" 512]) := by
  obtain ⟨m, p, hp, hc, hfs⟩ := exists_reachable_sixteen
  have hplan := Formatting.planDirectory_sixteen m
  have hfree : (bitmap (Formatting.after m 16) 16).free.drop (1 + sectorsFor directoryFileSize
      + indexBlocksFor (sectorsFor directoryFileSize)) = 10 :: List.range' 11 5 := by
    rw [Formatting.bitmap_after Formatting.valid_sixteen]
    decide
  have hserves := Creation.serves_of_planDirectory hc hplan
  have hinside := Creation.plan_inside 512 .file hc hserves
    (fun k cause hk => Creation.clear_of_planDirectory hplan (k + 1) cause (.other hk))
    (by decide) (by decide : Path.splitLast "/d/f" = .ok ([] ++ ["d"], "f")) hfree (by decide)
    (by decide)
  rw [if_neg (by decide), if_neg (by decide)] at hinside
  obtain ⟨q, hq, hdirectory⟩ := Request.perform_createDirectory (t := {}) hc hp hplan
  obtain ⟨q', -, hfile⟩ := Request.perform_create (t := {})
    (Creation.consistent_after hc hserves.valid) hq hinside
  have hfs' := hfs.perform (.createDirectory "/d") trivial
  rw [hdirectory] at hfs'
  rw [← hfs'.healthy.volume_eq] at hfile
  refine ⟨_, hfs, rfl, by rw [hdirectory], ?_, hfs.run ⟨trivial, trivial, trivial⟩⟩
  rw [hdirectory, hfile]

end IndexedDisk
