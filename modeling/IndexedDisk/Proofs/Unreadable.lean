import IndexedDisk.Proofs.Failing

/-!
# Requests on a disk that cannot be read everywhere

Sectors that cannot be read, when all can be written, are found before it is too late. What a
request to make or to remove a file reads while it writes the directory and the sector map, it has
read before it wrote anything (`ReadsFirst`). If it fails it has therefore written to sectors of the
new file at most, and those were free (`keeps_marked_if_unreadable`).

* `readsFirst_createEntry`, `readsFirst_remove`: the directory and the sector map are read first.
* `Commits.exists_take_of_readsFirst`: the request fails before it commits anything.
* `Kept`: what follows for the tree if all sectors in use are as they were.
-/

open IndexedDisk.Tree IndexedDisk.OpenFile

namespace IndexedDisk

seal Tree.table

variable {m : Medium} {count : Nat}

/-- If the sector cannot be read the request fails, and the medium is as it was. -/
def ReadsFirst {α : Type} (m : Medium) (count : Nat) (act : DiskM α) (s : Nat) : Prop :=
  ∀ p : FaultPlan, p.unreadable s = true →
    ∃ cause q, act ⟨m, count, p⟩ = .error cause ⟨m, count, q⟩

namespace ReadsFirst

variable {α β : Type} {act : DiskM α} {s : Nat}

theorem of_follows {sectors : List Nat} {result : Except Failure α}
    (h : Follows m count act (Script.reads sectors) result) (hs : .read s ∈ Script.reads sectors) :
    ReadsFirst m count act s := by
  intro p hp
  obtain ⟨cause, disk, hplay⟩ := Script.play_error_of_read m count hs hp
  obtain ⟨k, -, e, q, -, rfl⟩ := Script.play_error hplay
  rw [← Script.reads_take, Script.medium_reads] at hplay
  refine ⟨cause, q, ?_⟩
  rw [h p, bind_apply, hplay]

theorem bind_left {f : α → DiskM β} (h : ReadsFirst m count act s) :
    ReadsFirst m count (act >>= f) s := by
  intro p hp
  obtain ⟨cause, q, hact⟩ := h p hp
  exact ⟨cause, q, by rw [bind_apply, hact]⟩

theorem bind {f : α → DiskM β} {a : α} (h : Answers m count act (.ok a))
    (hf : ReadsFirst m count (f a) s) : ReadsFirst m count (act >>= f) s := by
  intro p hp
  obtain ⟨l, -, h⟩ := h
  rcases h.cases p with hact | ⟨k, -, e, q, hact⟩
  · rw [Script.medium_reads] at hact
    have hp' : ((Script.reads l).plan p).unreadable s = true := by
      rwa [Script.unreadable_plan]
    obtain ⟨cause, q, hact'⟩ := hf _ hp'
    exact ⟨cause, q, by rw [bind_apply, hact]; exact hact'⟩
  · rw [← Script.reads_take, Script.medium_reads] at hact
    exact ⟨_, q, by rw [bind_apply, hact]⟩

theorem ok_bind {x : Except Refusal α} {f : α → DiskM β} {a : α} (h : x = .ok a)
    (hf : ReadsFirst m count (f a) s) : ReadsFirst m count (liftM x >>= f) s :=
  bind (Answers.of_nil (Follows.of_ok_refusal h)) hf

end ReadsFirst

/-! ## The directory and the map are read first -/

namespace Header

theorem read_mem_loadScript {h : Header} {data : Array UInt8} (hsize : data.size = h.length)
    {s : Nat} (hs : .read s ∈ h.writeScript m 0 data) : .read s ∈ h.loadScript m := by
  rw [writeScript, hsize, Nat.zero_add, Nat.min_self] at hs
  obtain ⟨span, hspan, hs⟩ := List.mem_flatMap.mp hs
  refine List.mem_flatMap.mpr ⟨span, hspan, ?_⟩
  simp only [spanScript, Script.reads, List.map_append, List.mem_append, List.mem_map,
    List.mem_singleton, reduceCtorEq, or_false] at hs
  simp only [readScript, Script.reads, List.map_append, List.mem_append]
  rcases hs with hs | hs
  · exact Or.inl (List.mem_map.mpr hs)
  · right
    split at hs
    · simpa [eq_comm] using hs
    · simp at hs

end Header

namespace Tree.Consistent

variable (hc : Consistent m count) {s : Nat}
include hc

theorem read_mem_of_storeTable {p : Int32} (hp : Reached m (Word.wide p)) {d : Directory}
    (hsize : d.size = directorySlots)
    (hs : .read s ∈ (Header.stored m (Word.wide p)).writeScript m 0 d.image) :
    .read s ∈ (opened m p).header.loadScript m := by
  refine Header.read_mem_loadScript ?_ hs
  rw [Directory.size_image, hsize]
  exact (hc.directory_length _ hp).symm

theorem read_mem_of_storeMap {map : SectorMap} (hsize : map.size = count)
    (hs : .read s ∈ (Header.stored m (Word.wide mapSector)).writeScript m 0 map.image) :
    .read s ∈ (opened m mapSector).header.loadScript m := by
  refine Header.read_mem_loadScript ?_ hs
  rw [SectorMap.size_image, hsize]
  exact hc.map_length.symm

theorem readsFirst_fetchMap (hs : .read s ∈ (opened m mapSector).header.loadScript m) :
    ReadsFirst m count (Volume.on m).fetchMap s := by
  obtain ⟨sectors, -, heq⟩ := hc.exists_load .map
  have hfetch : Follows m count (SectorMap.fetch (opened m mapSector) count) _ _ :=
    SectorMap.follows_fetch (hc.intact _ _ .map) hc.map_length
  rw [heq] at hfetch hs
  exact .bind (Answers.of_nil Follows.sectorCount) (.of_follows hfetch hs)

theorem readsFirst_fetch {p : Int32} (hp : Reached m (Word.wide p))
    (hs : .read s ∈ (opened m p).header.loadScript m) :
    ReadsFirst m count (Directory.fetch (opened m p) directorySlots) s := by
  obtain ⟨o, -, ho⟩ := exists_names hp
  obtain ⟨sectors, -, heq⟩ := hc.exists_load ho
  have hfetch : Follows m count (Directory.fetch (opened m p) directorySlots) _ _ :=
    Directory.follows_fetch (hc.intact _ _ ho) (hc.directory_length _ hp)
  rw [heq] at hfetch hs
  exact .of_follows hfetch hs

theorem readsFirst_openAt {p : Int32} (hp : Reached m (Word.wide p))
    (hs : .read s ∈ (opened m p).header.loadScript m) :
    ReadsFirst m count (Directory.openAt p) s := by
  obtain ⟨o, -, ho⟩ := exists_names hp
  exact .bind (hc.answers_openFile ho) (hc.readsFirst_fetch hp hs).bind_left

theorem readsFirst_descend {p q : Int32} {walked names : List String} (hnames : names ≠ [])
    (hp : Reached m (Word.wide p)) (hwalk : walk (table m) p walked names = .ok q)
    (hs : .read s ∈ (opened m q).header.loadScript m) : ReadsFirst m count
      (Directory.descend (opened m p) (table m (Word.wide p)) walked names) s := by
  induction names generalizing p walked with
  | nil => exact absurd rfl hnames
  | cons name rest ih =>
    rw [walk] at hwalk
    split at hwalk
    · cases hwalk
    rename_i e hfind
    split at hwalk
    · rename_i hdir
      obtain ⟨i, hi, -⟩ := exists_slot hfind
      have he : Reached m (Word.wide e.sector) := .child hp hi hdir
      rw [Directory.descend_directory hfind hdir]
      cases rest with
      | nil =>
        obtain rfl := Except.ok.inj hwalk
        exact (hc.readsFirst_openAt he hs).bind_left
      | cons name' rest => exact .bind (hc.answers_openAt he) (ih (by simp) he hwalk)
    · cases hwalk

theorem readsFirst_resolve {p : Int32} {names : List String}
    (hwalk : walk (table m) rootSector [] names = .ok p)
    (hs : .read s ∈ (opened m p).header.loadScript m) :
    ReadsFirst m count ((Volume.on m).resolve names) s := by
  cases names with
  | nil =>
    obtain rfl := Except.ok.inj hwalk
    exact (hc.readsFirst_fetch .root hs).bind_left
  | cons name rest =>
    exact .bind (hc.answers_fetch .root)
      (hc.readsFirst_descend (by simp) .root hwalk hs)

/-- The directory is read before anything is done in it, if not the map. -/
theorem readsFirst_resolve_bind {α : Type} {p : Int32} {d : Directory} {names : List String}
    {f : OpenFile × Directory → DiskM α} (hwalk : walk (table m) rootSector [] names = .ok p)
    (hd : table m (Word.wide p) = d)
    (hs : .read s ∈ (opened m p).header.loadScript m ∨
      .read s ∈ (opened m mapSector).header.loadScript m)
    (hf : .read s ∈ (opened m mapSector).header.loadScript m →
      ReadsFirst m count (f (opened m p, d)) s) :
    ReadsFirst m count ((Volume.on m).resolve names >>= f) s := by
  rcases hs with hs | hs
  · exact (hc.readsFirst_resolve hwalk hs).bind_left
  · have hresolve := hc.answers_resolve names
    rw [hwalk, delivered, hd] at hresolve
    exact .bind hresolve (hf hs)

end Tree.Consistent

namespace Volume

variable (hc : Consistent m count) {path : String} {s : Nat}
include hc

theorem readsFirst_createEntry {size : Nat} {kind : EntryKind} {c : Creation}
    (hleads : LeadsTo m path c.parent c.name)
    (hplan : Creation.plan m count path size kind = .ok c)
    (hs : .read s ∈ (opened m c.parent).header.loadScript m ∨
      .read s ∈ (opened m mapSector).header.loadScript m) :
    ReadsFirst m count ((Volume.on m).createEntry path size kind) s := by
  have hnew := Creation.find?_eq_none_of_plan hleads hplan
  obtain ⟨parents, hsplit, hwalk⟩ := hleads
  unfold createEntry
  rw [hsplit]
  refine .ok_bind rfl (hc.readsFirst_resolve_bind hwalk rfl hs fun hs => ?_)
  dsimp only
  rw [hnew, if_neg nofun]
  exact (hc.readsFirst_fetchMap hs).bind_left

theorem readsFirst_create {size : Nat} {c : Creation}
    (hplan : Creation.plan m count path size .file = .ok c)
    (hs : .read s ∈ (opened m c.parent).header.loadScript m ∨
      .read s ∈ (opened m mapSector).header.loadScript m) :
    ReadsFirst m count ((Volume.on m).create path size) s :=
  (readsFirst_createEntry hc (Creation.serves_of_planFile hc hplan).leads hplan hs).bind_left

theorem readsFirst_createDirectory {c : Creation}
    (hplan : Creation.planDirectory m count path = .ok c)
    (hs : .read s ∈ (opened m c.parent).header.loadScript m ∨
      .read s ∈ (opened m mapSector).header.loadScript m) :
    ReadsFirst m count ((Volume.on m).createDirectory path) s := by
  have hleads := (Creation.serves_of_planDirectory hc hplan).leads
  unfold Creation.planDirectory at hplan
  split at hplan
  · rename_i habsolute
    rw [createDirectory, if_pos habsolute]
    exact (readsFirst_createEntry hc hleads hplan hs).bind_left
  · cases hplan

theorem readsFirst_removeIn {d : Directory} {name : String} {parent : Int32} {slot : Nat}
    {e : Entry} (hparent : Reached m (Word.wide parent))
    (hslot : slot? m (Word.wide parent) slot = some e) (hfind : d.find? name = some e)
    (hremovable : Removal.isRemovable m e = true)
    (hs : .read s ∈ (opened m mapSector).header.loadScript m) :
    ReadsFirst m count (do
      match d.find? name with
      | none => refuse (.notFound path)
      | some e =>
        let header ← Header.fetch e.sector
        let removable ← if e.isDirectory then isEmptyAt e.sector else pure true
        if removable then do
          let map ← (Volume.on m).fetchMap
          let map ← freeFile map header e.sector
          let d ← d.remove name
          map.store (Volume.on m).mapFile
          d.store (opened m parent)
          return e.sector
        else refuse (.directoryNotEmpty path)) s := by
  have hheader : Answers m count (Header.fetch e.sector)
      (.ok (Header.stored m (Word.wide e.sector))) :=
    (Answers.readSector (hc.names_lt (.entry hparent hslot))).map
  rw [hfind]
  refine .bind hheader ?_
  by_cases hdir : e.isDirectory = true
  · rw [Removal.isRemovable, if_pos hdir] at hremovable
    have hempty : Answers m count (isEmptyAt e.sector)
        (.ok (table m (Word.wide e.sector)).isEmpty) :=
      (hc.answers_openAt (.child hparent hslot hdir)).bind (Answers.pure _)
    rw [hremovable] at hempty
    rw [if_pos hdir]
    exact .bind hempty (hc.readsFirst_fetchMap hs).bind_left
  · rw [if_neg hdir]
    exact .bind (Answers.pure true) (hc.readsFirst_fetchMap hs).bind_left

theorem readsFirst_remove {r : Removal} (hplan : Removal.plan m path = .ok r)
    (hs : .read s ∈ (opened m r.parent).header.loadScript m ∨
      .read s ∈ (opened m mapSector).header.loadScript m) :
    ReadsFirst m count ((Volume.on m).remove path) s := by
  obtain ⟨hv, name, hleads, hfind⟩ := Removal.serves_of_plan hplan
  have hremovable := Removal.isRemovable_iff.mpr hv.blank
  obtain ⟨parents, hsplit, hwalk⟩ := hleads
  -- the table is kept under a name, so that nothing tries to evaluate it
  obtain ⟨d, hd⟩ : ∃ d, table m (Word.wide r.parent) = d := ⟨_, rfl⟩
  rw [hd] at hfind
  unfold remove
  rw [hsplit]
  exact .ok_bind rfl (hc.readsFirst_resolve_bind hwalk hd hs fun hs =>
    readsFirst_removeIn hc hv.parent hv.slot hfind hremovable hs)

end Volume

/-! ## Failing before the commit -/

/-- If all that a request reads late it has read first, it fails before it comes to that. -/
theorem Commits.exists_take_of_readsFirst {α : Type} {act : DiskM α} {stage commit : Script} {a : α}
    (h : Commits m count act (stage ++ commit) (.ok a))
    (hfirst : ∀ s, .read s ∈ commit → ReadsFirst m count act s)
    (hscript : (stage ++ commit).Within count) (hm : sectorSize * count ≤ m.size)
    {bad : Nat → Bool} {p : FaultPlan} (hp : p.Blind bad) {cause : Failure} {disk : Disk}
    (hfail : act ⟨m, count, p⟩ = .error cause disk) :
    ∃ k q, disk = ⟨Script.medium m (stage.take k), count, q⟩ := by
  by_cases hbad : ∃ s, .read s ∈ commit ∧ bad s = true
  · obtain ⟨s, hs, hbad⟩ := hbad
    rw [← hp.sectors] at hbad
    obtain ⟨cause', q, hact⟩ := hfirst s hs p hbad
    rw [hact] at hfail
    cases hfail
    exact ⟨0, q, rfl⟩
  · simp only [not_exists, not_and, Bool.not_eq_true] at hbad
    obtain ⟨l, -, h⟩ := h
    obtain ⟨hstage, hcommit⟩ := Script.within_append.mp hscript
    rw [h p, bind_apply, ← List.append_assoc, Script.play_append, bind_apply] at hfail
    cases hplay : (Script.reads l ++ stage).play ⟨m, count, p⟩ with
    | ok u disk₁ =>
      -- once all is staged the rest cannot fail any more
      obtain rfl := Script.play_ok hplay
      rw [hplay] at hfail
      dsimp only at hfail
      rw [Script.play_of_blind (Script.plan_blind hp _) hbad hcommit] at hfail
      · cases hfail
      · rw [Script.medium_append, Script.medium_reads, Script.size_medium hstage hm]
        exact hm
    | error cause' disk₁ =>
      obtain ⟨k, -, e, q, -, rfl⟩ := Script.play_error hplay
      rw [hplay] at hfail
      cases hfail
      rw [List.take_append, Script.medium_append, ← Script.reads_take, Script.medium_reads]
      exact ⟨_, q, rfl⟩

theorem Answers.exists_plan {α : Type} {act : DiskM α} {result : Except Failure α}
    (h : Answers m count act result) {p : FaultPlan} {cause : Failure} {disk : Disk}
    (hfail : act ⟨m, count, p⟩ = .error cause disk) : ∃ q, disk = ⟨m, count, q⟩ := by
  obtain ⟨l, -, h⟩ := h
  rcases h.cases p with hact | ⟨k, -, e, q, hact⟩
  · rw [hact, Script.medium_reads] at hfail
    cases result <;> cases hfail
    exact ⟨_, rfl⟩
  · rw [hact, ← Script.reads_take, Script.medium_reads] at hfail
    cases hfail
    exact ⟨q, rfl⟩

/-! ## What is kept -/

/-- All sectors in use are as they were, and so is all that the tree keeps in them. -/
structure Tree.Kept (m m' : Medium) (count : Nat) : Prop where
  get_eq : ∀ i, (bitmap m count).bit i = true → m'.get i = m.get i
  bitmap_eq : bitmap m' count = bitmap m count
  names_iff : ∀ o s, Names m' o s ↔ Names m o s
  table_eq : ∀ d, Reached m d → table m' d = table m d
  stored_eq : ∀ o s, Names m o s → Header.stored m' s = Header.stored m s
  index_eq : ∀ o s, Names m o s → (Header.stored m' s).index m' = (Header.stored m s).index m
  contents_eq : ∀ o s, Names m o s →
    (Header.stored m' s).contents m' = (Header.stored m s).contents m

theorem Tree.Kept.of_get_eq (hc : Consistent m count) {m' : Medium}
    (h : ∀ i, (bitmap m count).bit i = true → m'.get i = m.get i) : Kept m m' count := by
  have howned (i : Nat) (o : Owner) (a : Role) (ho : Owns m o a i) : m'.get i = m.get i :=
    h i ((hc.bit_iff i).mpr ⟨o, a, ho⟩)
  have hsame : SameTree m m' := .of_free howned
  exact {
    get_eq := h
    bitmap_eq := hsame.bitmap_eq hc
    names_iff := fun o s => hsame.names_iff hc
    table_eq := fun d hd => hc.table_eq hsame.framed hd (hsame.directory d hd)
    stored_eq := fun o s hs => hsame.framed.stored_eq hs
    index_eq := fun o s hs => hsame.framed.index_eq hs
    contents_eq := fun o s hs => hsame.framed.contents_eq_of (.refl m) hs (hc.intact o s hs)
      fun i hi => by
        obtain ⟨k, hk⟩ := owns_data hs hi
        exact howned i o _ hk }

section

variable (hc : Consistent m count) {bad : Nat → Bool} {p : FaultPlan} (hp : p.Blind bad)
  {cause : Failure} {disk : Disk}
include hc hp

/-- A request that reads first what it reads late fails before it writes to a sector in use. -/
theorem kept_of_performs {κ α : Type} {script : κ → Script} {result : κ → α}
    {plan : Except Refusal κ} {act : DiskM α} (h : Performs m count script result plan act)
    (stage commit : κ → Script) (hscript : ∀ k, script k = stage k ++ commit k)
    (hwithin : ∀ k, plan = .ok k → (script k).Within count)
    (hfirst : ∀ k, plan = .ok k → ∀ s, .read s ∈ commit k → ReadsFirst m count act s)
    (hfree : ∀ k, plan = .ok k → ∀ i ∈ (stage k).targets, (bitmap m count).bit i = false)
    (hfail : act ⟨m, count, p⟩ = .error cause disk) :
    Kept m disk.medium count ∧ disk.count = count := by
  cases hplan : plan with
  | error cause' =>
    obtain ⟨q, rfl⟩ := (h.answers cause' hplan).exists_plan hfail
    exact ⟨.of_get_eq hc fun _ _ => rfl, rfl⟩
  | ok k =>
    have hdone := h.commits k hplan
    have hin := hwithin k hplan
    rw [hscript] at hdone hin
    obtain ⟨n, q, rfl⟩ :=
      hdone.exists_take_of_readsFirst (hfirst k hplan) hin hc.covered hp hfail
    refine ⟨.of_get_eq hc fun i hi => Script.get_medium_of_not_mem (fun htarget => ?_) m, rfl⟩
    rw [hfree k hplan i (Script.targets_take_subset _ n htarget)] at hi
    cases hi

theorem kept_of_creation {act : DiskM Unit} {plan : Except Refusal Creation}
    (h : Performs m count (Creation.script · m count) (fun _ => ()) plan act)
    (hvalid : ∀ c, plan = .ok c → c.Valid m count)
    (hfirst : ∀ c, plan = .ok c → ∀ s, .read s ∈ (opened m c.parent).header.loadScript m ∨
      .read s ∈ (opened m mapSector).header.loadScript m → ReadsFirst m count act s)
    (hfail : act ⟨m, count, p⟩ = .error cause disk) :
    Kept m disk.medium count ∧ disk.count = count := by
  refine kept_of_performs hc hp h (·.stage m)
    (fun c => c.directoryScript m ++ c.mapScript m count) (fun _ => rfl)
    (fun c hplan => Creation.within_script hc (hvalid c hplan)) (fun c hplan s hs => ?_)
    (fun c hplan i hi => ?_) hfail
  · refine hfirst c hplan s ((List.mem_append.mp hs).imp (fun hs => ?_) fun hs => ?_)
    · exact hc.read_mem_of_storeTable (hvalid c hplan).parent Creation.size_directory hs
    · exact hc.read_mem_of_storeMap Creation.size_map hs
  · have hv := hvalid c hplan
    exact (SectorMap.mem_free.mp
      (Creation.mem_free_of_drawn hv (Creation.targets_stage_subset hv hi))).2

theorem kept_of_removal {act : DiskM Int32} {plan : Except Refusal Removal}
    (h : Performs m count (Removal.script · m count) (·.entry.sector) plan act)
    (hvalid : ∀ r, plan = .ok r → r.Valid m)
    (hfirst : ∀ r, plan = .ok r → ∀ s, .read s ∈ (opened m r.parent).header.loadScript m ∨
      .read s ∈ (opened m mapSector).header.loadScript m → ReadsFirst m count act s)
    (hfail : act ⟨m, count, p⟩ = .error cause disk) :
    Kept m disk.medium count ∧ disk.count = count := by
  refine kept_of_performs hc hp h (fun _ => [])
    (fun r => r.mapScript m count ++ r.directoryScript m) (fun _ => (List.nil_append _).symm)
    (fun r hplan => Removal.within_script hc (hvalid r hplan)) (fun r hplan s hs => ?_)
    (fun _ _ _ hi => nomatch hi) hfail
  exact hfirst r hplan s ((List.mem_append.mp hs).symm.imp
    (hc.read_mem_of_storeTable (hvalid r hplan).parent Removal.size_directory)
    (hc.read_mem_of_storeMap Removal.size_map))

end

theorem exists_failed_createDirectory (hc : Consistent m count) {path : String} {c : Creation}
    (hplan : Creation.planDirectory m count path = .ok c) {p : FaultPlan}
    (hp : p.unreadable c.sector = true) (t : OpenTable) : ∃ cause,
      ((Request.createDirectory path).perform ⟨⟨m, count, p⟩, Volume.on m, t⟩).1
        = .failed cause := by
  have hread : .read c.sector ∈ c.script m count := by
    rw [Creation.script, Creation.stage, Creation.blankScript,
      if_pos (Creation.serves_of_planDirectory hc hplan).kind_eq]
    exact List.mem_append_left _ (List.mem_append_right _ (List.mem_cons_self ..))
  obtain ⟨l, -, h⟩ := (Volume.performs_createDirectory hc path).commits c hplan
  obtain ⟨cause, disk, hplay⟩ := Script.play_error_of_read m count
    (List.mem_append_right (Script.reads l) hread) hp
  have hact : (Volume.on m).createDirectory path ⟨m, count, p⟩ = .error cause disk := by
    rw [h p, bind_apply, hplay]
  have hlift : FileSystem.createDirectory path ⟨⟨m, count, p⟩, Volume.on m, t⟩
      = answer (.error cause) ⟨disk, Volume.on m, t⟩ :=
    (FileSystem.getVolume_bind (·.createDirectory path)).trans (FileSystem.lift_answer hact)
  exact ⟨cause, congrArg Prod.fst (Request.respond_error hlift)⟩

/--
**A disk that cannot be read everywhere loses nothing.** When a request to make or to remove a file
fails on a disk of which some sectors cannot be read and all can be written, every sector that is in
use holds what it held. So the sector map, the directories, the headers, the index blocks and the
contents of all files are as they were, and so are the open files.
-/
theorem keeps_marked_if_unreadable {fs : FileSystem} (hfs : Reachable fs) (bad : Nat → Bool)
    {r : Request} (hr : r matches .create .. | .createDirectory .. | .remove ..) {cause : Failure}
    (hfail : (r.perform (fs.withFaults { unreadable := bad })).1 = .failed cause) :
    Kept fs.disk.medium (r.perform (fs.withFaults { unreadable := bad })).2.disk.medium
        fs.disk.count ∧
      (r.perform (fs.withFaults { unreadable := bad })).2.disk.count = fs.disk.count ∧
      (r.perform (fs.withFaults { unreadable := bad })).2.volume = fs.volume ∧
      (r.perform (fs.withFaults { unreadable := bad })).2.opened = fs.opened := by
  obtain ⟨hs, -, hv⟩ := hfs.healthy
  obtain ⟨⟨m, count, q⟩, v, t⟩ := fs
  dsimp only at hs hv
  subst hv
  have hc := hs.consistent
  have hp := FaultPlan.blind_default bad
  have keeps {fs' : FileSystem} {disk' : Disk} (heq : fs' = ⟨disk', Volume.on m, t⟩)
      (hkept : Kept m disk'.medium count) (hcount : disk'.count = count) :
      Kept m fs'.disk.medium count ∧ fs'.disk.count = count ∧ fs'.volume = Volume.on m ∧
        fs'.opened = t := by
    subst heq
    exact ⟨hkept, hcount, rfl, rfl⟩
  cases r with
  | create path size =>
    have hact := (FileSystem.getVolume_bind (·.create path size)).symm.trans
      (Request.eq_error_of_respond nofun hfail)
    obtain ⟨disk', hfirst, heq⟩ := FileSystem.exists_of_lift_error hact
    obtain ⟨hkept, hcount⟩ := kept_of_creation hc hp (Volume.performs_create hc path size)
      (fun c hplan => (Creation.serves_of_planFile hc hplan).valid)
      (fun c hplan s => Volume.readsFirst_create hc hplan) hfirst
    exact keeps heq hkept hcount
  | createDirectory path =>
    have hact := (FileSystem.getVolume_bind (·.createDirectory path)).symm.trans
      (Request.eq_error_of_respond nofun hfail)
    obtain ⟨disk', hfirst, heq⟩ := FileSystem.exists_of_lift_error hact
    obtain ⟨hkept, hcount⟩ := kept_of_creation hc hp (Volume.performs_createDirectory hc path)
      (fun c hplan => (Creation.serves_of_planDirectory hc hplan).valid)
      (fun c hplan s => Volume.readsFirst_createDirectory hc hplan) hfirst
    exact keeps heq hkept hcount
  | remove path =>
    have hact := (FileSystem.remove_eq path).symm.trans (Request.eq_error_of_respond nofun hfail)
    obtain ⟨disk', hfirst, heq⟩ :=
      FileSystem.exists_of_lift_bind_error (fun _ _ => ⟨_, _, rfl⟩) hact
    obtain ⟨hkept, hcount⟩ := kept_of_removal hc hp (Volume.performs_remove hc path)
      (fun r hplan => (Removal.serves_of_plan hplan).valid)
      (fun r hplan s => Volume.readsFirst_remove hc hplan) hfirst
    exact keeps heq hkept hcount
  | _ => cases hr

/-- The header of a new directory is written, but cannot be read back. -/
theorem keeps_marked_if_unreadable_header : ∃ fs cause, Reachable fs ∧
    ((Request.createDirectory "/d").perform (fs.withFaults { unreadable := (· == 6) })).1
      = .failed cause ∧
    Kept fs.disk.medium ((Request.createDirectory "/d").perform
      (fs.withFaults { unreadable := (· == 6) })).2.disk.medium fs.disk.count := by
  obtain ⟨m, q, -, hc, hfs⟩ := exists_reachable_sixteen
  obtain ⟨cause, hfail⟩ := exists_failed_createDirectory hc (Formatting.planDirectory_sixteen m)
    (p := { unreadable := (· == 6) }) rfl {}
  exact ⟨_, cause, hfs, hfail, (keeps_marked_if_unreadable hfs (· == 6) rfl hfail).1⟩

end IndexedDisk
