import IndexedDisk.Proofs.Failing

/-!
# What a request may change

Reads and writes may fail at any moment, so that a request stops in the middle of what it does.
Even then it has changed free sectors, if it makes a file, and data of the directory and of the
sector map, or of the one file that it writes. No header, no index block and no other data that was
in use has changed (`mem_footprint_of_changed`).
-/

open IndexedDisk.Tree IndexedDisk.OpenFile

namespace IndexedDisk

/-- Whatever faults there are, the request changes some of these sectors and no others. -/
def Touches {α : Type} (m : Medium) (count : Nat) (act : DiskM α) (sectors : List Nat) : Prop :=
  ∀ p, ∃ result m' q, act ⟨m, count, p⟩ = answer result ⟨m', count, q⟩ ∧
    ∀ i, m'.get i ≠ m.get i → i ∈ sectors

namespace Touches

variable {α β : Type} {m : Medium} {count : Nat} {act : DiskM α} {sectors : List Nat}

theorem of_commits {script : Script} {result : Except Failure α}
    (h : Commits m count act script result) (hsub : script.targets ⊆ sectors) :
    Touches m count act sectors := by
  intro p
  obtain ⟨k, q, hact | ⟨e, hact⟩⟩ := h.exists_take p
  · refine ⟨result, _, q, hact, fun i => not_imp_comm.mp fun hi => ?_⟩
    exact Script.get_medium_of_not_mem (fun hmem => hi (hsub hmem)) m
  · refine ⟨.error (.refused (.device e)), _, q, hact, fun i => not_imp_comm.mp fun hi => ?_⟩
    exact Script.get_medium_of_not_mem
      (fun hmem => hi (hsub (Script.targets_take_subset script k hmem))) m

theorem of_answers {result : Except Failure α} (h : Answers m count act result) :
    Touches m count act sectors := by
  obtain ⟨l, hl, h⟩ := h
  exact of_commits ⟨l, hl, by rwa [List.append_nil]⟩ (List.nil_subset _)

theorem of_readsOnly (h : ReadsOnly act) : Touches m count act sectors := by
  intro p
  obtain ⟨result, n, hact⟩ := h m count p
  exact ⟨result, m, _, hact, fun i hi => absurd rfl hi⟩

variable (h : Touches m count act sectors) {p : FaultPlan} {v : Volume} {t : OpenTable} {i : Nat}
include h

theorem of_lift {f : α → Response} {act' : FileSystemM α}
    (hact' : act' ⟨⟨m, count, p⟩, v, t⟩ = (liftM act : FileSystemM α) ⟨⟨m, count, p⟩, v, t⟩)
    (hi : (Request.respond f act' ⟨⟨m, count, p⟩, v, t⟩).2.disk.medium.get i ≠ m.get i) :
    i ∈ sectors := by
  obtain ⟨result, m', q, hact, hkeep⟩ := h p
  rw [FileSystem.lift_answer hact] at hact'
  cases result with
  | error cause =>
    rw [Request.respond_error hact'] at hi
    exact hkeep i hi
  | ok a =>
    rw [Request.respond_ok hact'] at hi
    exact hkeep i hi

theorem of_lift_bind {g : α → FileSystemM β}
    (hg : ∀ a disk v t, ∃ b t', g a ⟨disk, v, t⟩ = .ok b ⟨disk, v, t'⟩) {f : β → Response}
    {act' : FileSystemM β} (hact' : act' ⟨⟨m, count, p⟩, v, t⟩
      = (liftM act >>= g : FileSystemM β) ⟨⟨m, count, p⟩, v, t⟩)
    (hi : (Request.respond f act' ⟨⟨m, count, p⟩, v, t⟩).2.disk.medium.get i ≠ m.get i) :
    i ∈ sectors := by
  obtain ⟨result, m', q, hact, hkeep⟩ := h p
  rw [bind_apply, FileSystem.lift_answer hact] at hact'
  cases result with
  | error cause =>
    rw [Request.respond_error hact'] at hi
    exact hkeep i hi
  | ok a =>
    obtain ⟨b, t', hb⟩ := hg a ⟨m', count, q⟩ v t
    rw [Request.respond_ok (hact'.trans hb)] at hi
    exact hkeep i hi

end Touches

namespace Request

/-- The request makes a file. -/
def Allocates : Request → Prop
  | create .. | createDirectory _ => True
  | _ => False

/-- The request neither makes nor removes nor writes a file. -/
def OnlyReads : Request → Prop
  | create .. | createDirectory _ | remove _ | write .. => False
  | _ => True

/-- The request writes to the file whose header lies in this sector. -/
def Rewrites (m : Medium) (t : OpenTable) : Request → Nat → Prop
  | create path _, s | createDirectory path, s | remove path, s =>
    s = Word.wide mapSector ∨ ∃ p name, LeadsTo m path p name ∧ s = Word.wide p
  | write id _, s => ∃ f, t.find? id = some f ∧ s = Word.wide f.sector
  | _, _ => False

end Request

section

variable {m : Medium} {count : Nat} {p : FaultPlan} {t : OpenTable} (hc : Consistent m count)
include hc

/-- A new file is staged in free sectors; then the directory and the map are written. -/
theorem touches_create {act : DiskM Unit} {path : String} {size : Nat} {kind : EntryKind}
    {plan : Except Refusal Creation}
    (h : Performs m count (Creation.script · m count) (fun _ => ()) plan act)
    (hserves : ∀ c, plan = .ok c → c.Serves m count path size kind) :
    ∃ sectors, Touches m count act sectors ∧
      ∀ i ∈ sectors, i ∈ (bitmap m count).free ∨
        ∃ s, (s = Word.wide mapSector ∨ ∃ p name, LeadsTo m path p name ∧ s = Word.wide p) ∧
          i ∈ (Header.stored m s).data m := by
  cases plan with
  | error cause => exact ⟨[], .of_answers (h.answers cause rfl), nofun⟩
  | ok c =>
    have hserves := hserves c rfl
    have hv := hserves.valid
    obtain ⟨o, -, ho⟩ := exists_names hv.parent
    refine ⟨_, .of_commits (h.commits c rfl) (List.Subset.refl _), fun i hi => ?_⟩
    rw [Creation.script, Script.targets_append, Script.targets_append, List.mem_append,
      List.mem_append] at hi
    rcases hi with hi | hi | hi
    · exact Or.inl (Creation.mem_free_of_drawn hv (Creation.targets_stage_subset hv hi))
    · exact Or.inr ⟨_, Or.inr ⟨c.parent, c.name, hserves.leads, rfl⟩,
        Header.targets_writeScript_subset 0 _ (hc.intact _ _ ho) hi⟩
    · exact Or.inr ⟨_, Or.inl rfl,
        Header.targets_writeScript_subset 0 _ (hc.intact _ _ .map) hi⟩

theorem touches_remove (path : String) : ∃ sectors,
    Touches m count ((Volume.on m).remove path) sectors ∧ ∀ i ∈ sectors,
      ∃ s, (s = Word.wide mapSector ∨ ∃ p name, LeadsTo m path p name ∧ s = Word.wide p) ∧
        i ∈ (Header.stored m s).data m := by
  have h := Volume.performs_remove hc path
  cases hplan : Removal.plan m path with
  | error cause =>
    rw [hplan] at h
    exact ⟨[], .of_answers (h.answers cause rfl), nofun⟩
  | ok r =>
    have hserves := Removal.serves_of_plan hplan
    rw [hplan] at h
    obtain ⟨o, -, ho⟩ := exists_names hserves.valid.parent
    obtain ⟨name, hleads, -⟩ := hserves.leads
    refine ⟨_, .of_commits (h.commits r rfl) (List.Subset.refl _), fun i hi => ?_⟩
    rw [Removal.script, Script.targets_append, List.mem_append] at hi
    rcases hi with hi | hi
    · exact ⟨_, Or.inl rfl, Header.targets_writeScript_subset 0 _ (hc.intact _ _ .map) hi⟩
    · exact ⟨_, Or.inr ⟨r.parent, name, hleads, rfl⟩,
        Header.targets_writeScript_subset 0 _ (hc.intact _ _ ho) hi⟩

theorem touches_write {f : OpenFile} (hf : f.Current m) (data : Array UInt8) :
    Touches m count (f.write data) ((Header.stored m (Word.wide f.sector)).data m) := by
  rw [← hf.header_eq]
  rcases hf.follows_write hc data with ⟨-, h⟩ | h
  · exact .of_commits (Commits.of_follows h) (List.nil_subset _)
  · exact .of_commits (Commits.of_follows h)
      (Header.targets_writeScript_subset f.position data (hf.intact hc))

end

theorem medium_performRemount (fs : FileSystem) :
    (Request.performRemount fs).2.disk.medium = fs.disk.medium := by
  obtain ⟨⟨m, count, p⟩, v, t⟩ := fs
  obtain ⟨result, n, hunmount⟩ := Volume.readsOnly_unmount m count p
  obtain ⟨result', n', hmount⟩ := Volume.readsOnly_mount m count (p.afterReads n)
  cases result with
  | error cause =>
    have hunmount : FileSystem.unmount ⟨⟨m, count, p⟩, v, t⟩
        = .error (cause, ⟨m, count, p.afterReads n⟩) := by
      rw [FileSystem.unmount, hunmount]
      rfl
    rw [Request.performRemount, hunmount]
  | ok a =>
    have hunmount : FileSystem.unmount ⟨⟨m, count, p⟩, v, t⟩
        = .ok ⟨m, count, p.afterReads n⟩ := by
      rw [FileSystem.unmount, hunmount]
      rfl
    rw [Request.performRemount, hunmount]
    dsimp only
    rw [FileSystem.mount, hmount]
    cases result' <;> rfl

theorem Request.get_perform_of_onlyReads {r : Request} (hr : r.OnlyReads) (fs : FileSystem)
    (i : Nat) : (r.perform fs).2.disk.medium.get i = fs.disk.medium.get i := by
  obtain ⟨⟨m, count, p⟩, v, t⟩ := fs
  by_contra hi
  cases r with
  | create | createDirectory | remove | write => exact hr
  | openFile path draws =>
    have h : Touches m count (v.openPath path) [] := .of_readsOnly (v.readsOnly_openPath path)
    refine List.not_mem_nil
      (h.of_lift_bind (fun f disk v t => ?_) (FileSystem.openFile_eq path draws) hi)
    rw [FileSystem.getTable_bind]
    cases t.pick? draws with
    | none => exact ⟨_, _, rfl⟩
    | some id => exact ⟨_, _, rfl⟩
  | close id =>
    cases hfind : t.find? id with
    | none =>
      rw [Request.perform, Request.respond_error (FileSystem.close_eq_unknown hfind)] at hi
      exact hi rfl
    | some f =>
      rw [Request.perform, Request.respond_ok (FileSystem.close_eq hfind)] at hi
      exact hi rfl
  | read id buffer =>
    cases hfind : t.find? id with
    | none =>
      rw [Request.perform, Request.respond_ok (FileSystem.read_eq_unknown hfind buffer)] at hi
      exact hi rfl
    | some f =>
      have h : Touches m count (Disk.runOn buffer f.read) [] :=
        .of_readsOnly (f.readsOnly_read buffer)
      have hg (r : (Nat × OpenFile) × Array UInt8) (disk : Disk) (v : Volume) (t : OpenTable) :
          ∃ b t', (do
            FileSystem.amendTable (·.replace id r.1.2)
            pure (r.1.1, r.2) : FileSystemM (Nat × Array UInt8)) ⟨disk, v, t⟩
              = .ok b ⟨disk, v, t'⟩ := ⟨_, _, rfl⟩
      cases h.of_lift_bind hg (FileSystem.read_eq hfind buffer) hi
  | list path =>
    have h : Touches m count (v.list path) [] := .of_readsOnly (v.readsOnly_list path)
    cases h.of_lift (FileSystem.getVolume_bind (·.list path)) hi
  | listTree path =>
    have h : Touches m count (v.listTree path) [] := .of_readsOnly (v.readsOnly_listTree path)
    cases h.of_lift (FileSystem.getVolume_bind (·.listTree path)) hi
  | freeSectors =>
    have h : Touches m count v.freeSectors [] := .of_readsOnly v.readsOnly_freeSectors
    have hact' : FileSystem.freeSectors ⟨⟨m, count, p⟩, v, t⟩ = _ :=
      FileSystem.getVolume_bind Volume.freeSectors
    rw [Request.perform] at hi
    cases h.of_lift hact' hi
  | remount =>
    rw [Request.perform] at hi
    exact hi (by rw [medium_performRemount])

section

variable {fs : FileSystem} (hs : Sound fs.disk.medium fs.disk.count fs.opened)
  (hv : fs.volume = Volume.on fs.disk.medium)
include hs hv

/-- What a request changes is free or data of a file that it writes to. -/
theorem free_or_data_of_changed (r : Request) {i : Nat}
    (hi : (r.perform fs).2.disk.medium.get i ≠ fs.disk.medium.get i) :
    (r.Allocates ∧ i ∈ (bitmap fs.disk.medium fs.disk.count).free) ∨
      ∃ s, r.Rewrites fs.disk.medium fs.opened s ∧
        i ∈ (Header.stored fs.disk.medium s).data fs.disk.medium := by
  obtain ⟨⟨m, count, p⟩, v, t⟩ := fs
  obtain ⟨hc, -, hcurrent⟩ := hs
  dsimp only at hc hcurrent hv hi ⊢
  subst hv
  cases r with
  | create path size =>
    obtain ⟨sectors, h, hsectors⟩ := touches_create hc (Volume.performs_create hc path size)
      fun c => Creation.serves_of_planFile hc
    exact (hsectors i (h.of_lift (FileSystem.getVolume_bind (·.create path size)) hi)).imp
      (⟨trivial, ·⟩) id
  | createDirectory path =>
    obtain ⟨sectors, h, hsectors⟩ := touches_create hc (Volume.performs_createDirectory hc path)
      fun c => Creation.serves_of_planDirectory hc
    exact (hsectors i (h.of_lift (FileSystem.getVolume_bind (·.createDirectory path)) hi)).imp
      (⟨trivial, ·⟩) id
  | remove path =>
    obtain ⟨sectors, h, hsectors⟩ := touches_remove hc path
    have hg (sector : Int32) (disk : Disk) (v : Volume) (t : OpenTable) : ∃ b t',
        FileSystem.amendTable (·.eraseSector sector) ⟨disk, v, t⟩ = .ok b ⟨disk, v, t'⟩ :=
      ⟨_, _, rfl⟩
    exact Or.inr (hsectors i (h.of_lift_bind hg (FileSystem.remove_eq path) hi))
  | write id data =>
    cases hfind : t.find? id with
    | none =>
      rw [Request.perform, Request.respond_ok (FileSystem.write_eq_unknown hfind data)] at hi
      exact absurd rfl hi
    | some f =>
      have hg (r : Nat × OpenFile) (disk : Disk) (v : Volume) (t : OpenTable) : ∃ b t', (do
          FileSystem.amendTable (·.replace id r.2)
          pure r.1 : FileSystemM Nat) ⟨disk, v, t⟩ = .ok b ⟨disk, v, t'⟩ := ⟨_, _, rfl⟩
      exact Or.inr ⟨_, ⟨f, hfind, rfl⟩, (touches_write hc (hcurrent id f hfind) data).of_lift_bind
        hg (FileSystem.write_eq hfind data) hi⟩
  | _ => exact absurd (Request.get_perform_of_onlyReads (by trivial) _ i) hi

omit hv in
theorem exists_names_of_rewrites {r : Request} {s : Nat}
    (h : r.Rewrites fs.disk.medium fs.opened s) : ∃ o, Names fs.disk.medium o s := by
  have hdirectory {path : String} (h : s = Word.wide mapSector ∨
      ∃ p name, LeadsTo fs.disk.medium path p name ∧ s = Word.wide p) :
      ∃ o, Names fs.disk.medium o s := by
    rcases h with rfl | ⟨p, name, hleads, rfl⟩
    · exact ⟨.map, .map⟩
    · obtain ⟨o, -, ho⟩ := exists_names hleads.reached
      exact ⟨o, ho⟩
  cases r with
  | create | createDirectory | remove => exact hdirectory h
  | write id data =>
    obtain ⟨f, hf, rfl⟩ := h
    obtain ⟨d, i, hs⟩ := (hs.current id f hf).named
    exact ⟨_, hs⟩
  | _ => cases h

/--
**A request changes nothing that is not its own.** Whatever faults strike while a request is made to
a file system whose tree is well formed, a sector that has changed was free, if a file was to be
made, or held data of a file that the request writes to: the directory at the path and the sector
map, or the file under the id. What any owner used the sector for was then data of such a file.
-/
theorem mem_footprint_of_changed (r : Request) {i : Nat}
    (hi : (r.perform fs).2.disk.medium.get i ≠ fs.disk.medium.get i) :
    ((r.Allocates ∧ i < fs.disk.count ∧ (bitmap fs.disk.medium fs.disk.count).bit i = false) ∨
      ∃ s, r.Rewrites fs.disk.medium fs.opened s ∧
        i ∈ (Header.stored fs.disk.medium s).data fs.disk.medium) ∧
    ∀ o a, Owns fs.disk.medium o a i → ∃ k s, a = .data k ∧ Names fs.disk.medium o s ∧
      r.Rewrites fs.disk.medium fs.opened s := by
  have hchanged := free_or_data_of_changed hs hv r hi
  refine ⟨hchanged.imp (fun h => ⟨h.1, SectorMap.mem_free.mp h.2⟩) id, fun o a ho => ?_⟩
  rcases hchanged with ⟨-, hfree⟩ | ⟨s, hr, hdata⟩
  · exact absurd ho (hs.consistent.not_owns_of_free hfree o a)
  · obtain ⟨o', hs'⟩ := exists_names_of_rewrites hs hr
    obtain ⟨rfl, k, rfl⟩ := hs.consistent.role_of_mem_data hs' hdata ho
    exact ⟨k, s, rfl, hs', hr⟩

end

/-- The making of a file that the disk stops before the sector map is written. The new entry has
changed the data of the root directory. -/
theorem mem_footprint_of_changed_halfway : ∃ (fs : FileSystem) (i : Nat),
    Sound fs.disk.medium fs.disk.count fs.opened ∧ fs.volume = Volume.on fs.disk.medium ∧
    fs.disk.faults = { budget := some 4 } ∧
    ((Request.create "/a" 0).perform fs).1 = .failed (.refused (.device .writeFault)) ∧
    ((Request.create "/a" 0).perform fs).2.disk.medium.get i ≠ fs.disk.medium.get i ∧
    (((Request.create "/a" 0).Allocates ∧ i < fs.disk.count ∧
        (bitmap fs.disk.medium fs.disk.count).bit i = false) ∨
      ∃ s, (Request.create "/a" 0).Rewrites fs.disk.medium fs.opened s ∧
        i ∈ (Header.stored fs.disk.medium s).data fs.disk.medium) ∧
    ∀ o a, Owns fs.disk.medium o a i → ∃ k s, a = .data k ∧ Names fs.disk.medium o s ∧
      (Request.create "/a" 0).Rewrites fs.disk.medium fs.opened s := by
  obtain ⟨fs, hhealthy, hempty, hfail, hentry⟩ : ∃ fs : FileSystem, fs.Healthy ∧
      slot? fs.disk.medium (Word.wide rootSector) 0 = none ∧
      ((Request.create "/a" 0).perform (fs.withFaults { budget := some 4 })).1
        = .failed (.refused (.device .writeFault)) ∧
      slot? ((Request.create "/a" 0).perform
        (fs.withFaults { budget := some 4 })).2.disk.medium (Word.wide rootSector) 0 ≠ none := by
    obtain ⟨m, q, -, -, hfs⟩ := exists_reachable_sixteen
    obtain ⟨hfail, hentry, -⟩ :=
      entered_empty hfs.healthy (Formatting.plan_sixteen m (Nat.zero_le 1152))
    exact ⟨_, hfs.healthy, Formatting.slot?_after Formatting.valid_sixteen 0, hfail,
      Option.ne_none_iff_exists'.mpr ⟨_, hentry⟩⟩
  have hs := hhealthy.sound
  obtain ⟨i, hi⟩ : ∃ i, ((Request.create "/a" 0).perform
      (fs.withFaults { budget := some 4 })).2.disk.medium.get i ≠ fs.disk.medium.get i := by
    by_contra hsame
    simp only [not_exists, not_not] at hsame
    have hframed : Framed fs.disk.medium _ := fun _ s _ => ⟨hsame s, fun i _ => hsame i⟩
    have hslot := hs.consistent.slot?_eq hframed .root (fun i _ => hsame i) 0
    exact hentry (hslot.trans hempty)
  exact ⟨fs.withFaults { budget := some 4 }, i, hs, hhealthy.volume_eq, rfl, hfail, hi,
    @mem_footprint_of_changed (fs.withFaults { budget := some 4 }) hs hhealthy.volume_eq _ _ hi⟩

end IndexedDisk
