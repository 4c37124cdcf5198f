import IndexedDisk.Proofs.Listing

/-!
# What lasts

Of a file system only the table of open files is gone once its disk was mounted again. All else that
it had in memory, the two headers of its volume, is on the disk as it was when the volume was made.

* `Settled`: a request that does the same on every disk without faults.
* `Alike.perform`, `Alike.answers`: file systems that differ in nothing but the plans of faults of
  their disks cannot be told apart.
* `lasts_through_mounting`: what is mounted again is the same file system, with its files closed.
-/

open IndexedDisk.Tree IndexedDisk.OpenFile

namespace IndexedDisk

seal Tree.table

variable {m m' : Medium} {count : Nat} {v : Volume} {t : OpenTable} {α β : Type}

/-! ## Requests that always do the same -/

/--
Whatever disk without faults the medium is in, the request has one answer, and leaves one medium and
one table.
-/
def Settled (m : Medium) (count : Nat) (v : Volume) (t : OpenTable) (act : FileSystemM α) : Prop :=
  ∃ result m' t', ∀ p : FaultPlan, p.Faultless → ∃ q : FaultPlan, q.Faultless ∧
    act ⟨⟨m, count, p⟩, v, t⟩ = answer result ⟨⟨m', count, q⟩, v, t'⟩

namespace Settled

variable {act act' : FileSystemM α}

theorem pure (a : α) : Settled m count v t (Pure.pure a) := ⟨.ok a, m, t, fun p hp => ⟨p, hp, rfl⟩⟩

theorem refuse (cause : Refusal) : Settled m count v t (IndexedDisk.refuse cause : FileSystemM α) :=
  ⟨.error (.refused cause), m, t, fun p hp => ⟨p, hp, rfl⟩⟩

theorem getTable : Settled m count v t FileSystem.getTable :=
  ⟨.ok t, m, t, fun p hp => ⟨p, hp, rfl⟩⟩

theorem amendTable (f : OpenTable → OpenTable) : Settled m count v t (FileSystem.amendTable f) :=
  ⟨.ok (), m, f t, fun p hp => ⟨p, hp, rfl⟩⟩

theorem of_yields {act : DiskM α} {result : Except Failure α} (h : Yields m count act m' result) :
    Settled m count v t (liftM act) := by
  refine ⟨result, m', t, fun p hp => ?_⟩
  obtain ⟨q, hq, hact⟩ := h p hp
  exact ⟨q, hq, FileSystem.lift_answer hact⟩

theorem of_performs {κ : Type} {script : κ → Script} {result : κ → α} {plan : Except Refusal κ}
    {act : DiskM α} (h : Performs m count script result plan act)
    (hscript : ∀ k, plan = .ok k → (script k).Within count) (hm : sectorSize * count ≤ m.size) :
    Settled m count v t (liftM act) := by
  cases hplan : plan with
  | error cause => exact of_yields (.of_answers (h.answers cause hplan) hm)
  | ok k => exact of_yields (.of_commits (h.commits k hplan) (hscript k hplan) hm)

theorem bind {f : α → FileSystemM β} (h : Settled m count v t act)
    (hf : ∀ a m' t', Settled m' count v t' (f a)) : Settled m count v t (act >>= f) := by
  obtain ⟨result, m', t', h⟩ := h
  cases result with
  | error cause =>
    refine ⟨.error cause, m', t', fun p hp => ?_⟩
    obtain ⟨q, hq, hact⟩ := h p hp
    exact ⟨q, hq, by rw [bind_apply, hact]; rfl⟩
  | ok a =>
    obtain ⟨result', m'', t'', hf⟩ := hf a m' t'
    refine ⟨result', m'', t'', fun p hp => ?_⟩
    obtain ⟨q, hq, hact⟩ := h p hp
    obtain ⟨q', hq', hf⟩ := hf q hq
    exact ⟨q', hq', by rw [bind_apply, hact]; exact hf⟩

theorem congr (heq : ∀ p, act' ⟨⟨m, count, p⟩, v, t⟩ = act ⟨⟨m, count, p⟩, v, t⟩)
    (h : Settled m count v t act) : Settled m count v t act' := by
  obtain ⟨result, m', t', h⟩ := h
  exact ⟨result, m', t', fun p hp => (heq p).symm ▸ h p hp⟩

end Settled

/-! ## Reading the file at a path -/

/-- Reads the file at a path from a position on. -/
def Volume.readPath (v : Volume) (path : String) (position : Nat) (buffer : Array UInt8) :
    DiskM (Nat × Array UInt8) := do
  let f ← v.openPath path
  Disk.runOn buffer (f.readAt position)

/-- Reads the file at a path from a position on, without giving it an id. -/
def FileSystem.readPath (path : String) (position : Nat) (buffer : Array UInt8) :
    FileSystemM (Nat × Array UInt8) := do
  (← getVolume).readPath path position buffer

namespace Tree

theorem current_of_found {path : String} {e : Entry} (h : found m path = .ok e) :
    (opened m e.sector).Current m := by
  obtain ⟨p, name, hleads, hfind⟩ := found_eq_ok.mp h
  obtain ⟨i, hi, -⟩ := exists_slot hfind
  exact ⟨rfl, Nat.zero_le _, _, i, .entry hleads.reached hi⟩

theorem Consistent.exists_answers_readPath (hc : Consistent m count) (path : String)
    (position : Nat) (buffer : Array UInt8) :
    ∃ result, Answers m count ((Volume.on m).readPath path position buffer) result := by
  have hopen := hc.answers_openPath path
  cases hfound : found m path with
  | error cause =>
    rw [hfound] at hopen
    exact ⟨_, hopen.bind_error⟩
  | ok e =>
    rw [hfound] at hopen
    have hf := current_of_found hfound
    rcases hf.follows_readAt hc position buffer with ⟨-, h⟩ | ⟨sectors, hsub, h⟩
    · exact ⟨_, hopen.bind (.of_nil h)⟩
    · exact ⟨_, hopen.bind ⟨sectors, fun s hs => hf.sectors_lt hc (hsub hs), h⟩⟩

end Tree

/-! ## File systems that cannot be told apart -/

namespace Settled

theorem respond {act : FileSystemM α} (h : Settled m count v t act) (f : α → Response) :
    ∃ response m' t', ∀ p : FaultPlan, p.Faultless → ∃ q : FaultPlan, q.Faultless ∧
      Request.respond f act ⟨⟨m, count, p⟩, v, t⟩ = (response, ⟨⟨m', count, q⟩, v, t'⟩) := by
  obtain ⟨result, m', t', h⟩ := h
  refine ⟨.of f result, m', t', fun p hp => ?_⟩
  obtain ⟨q, hq, heq⟩ := h p hp
  cases result with
  | ok a => exact ⟨q, hq, Request.respond_ok heq⟩
  | error cause => exact ⟨q, hq, Request.respond_error heq⟩

theorem close (id : Int32) : Settled m count v t (FileSystem.close id) := by
  refine .bind (.bind .getTable fun t' _ _ => .pure (t'.find? id)) fun f _ _ => ?_
  cases f with
  | none => exact .refuse _
  | some f => exact .amendTable _

section

variable (hc : Consistent m count)
include hc

theorem of_answers {act : DiskM α} {result : Except Failure α} (h : Answers m count act result) :
    Settled m count v t (liftM act) := .of_yields (.of_answers h hc.covered)

theorem remove (path : String) : Settled m count (Volume.on m) t (FileSystem.remove path) := by
  refine .congr (fun p => FileSystem.remove_eq path) (.bind ?_ fun _ _ _ => .amendTable _)
  exact .of_performs (Volume.performs_remove hc path)
    (fun r hplan => Removal.within_script hc (Removal.serves_of_plan hplan).valid) hc.covered

theorem openFile (path : String) (draws : List Int32) :
    Settled m count (Volume.on m) t (FileSystem.openFile path draws) := by
  refine .congr (fun p => FileSystem.openFile_eq path draws)
    (.bind (.of_answers hc (hc.answers_openPath path)) fun f _ _ =>
      .bind .getTable fun t' _ _ => ?_)
  cases t'.pick? draws with
  | none => exact .pure _
  | some id => exact .bind (.amendTable _) fun _ _ _ => .pure _

variable {id : Int32} (ht : ∀ f, t.find? id = some f → f.Current m)
include ht

theorem read (buffer : Array UInt8) : Settled m count v t (FileSystem.read id buffer) := by
  cases hfind : t.find? id with
  | none => exact .congr (fun p => FileSystem.read_eq_unknown hfind buffer) (.pure _)
  | some f =>
    refine .congr (fun p => FileSystem.read_eq hfind buffer)
      (.bind ?_ fun _ _ _ => .bind (.amendTable _) fun _ _ _ => .pure _)
    rcases (ht f hfind).answers_read hc buffer with ⟨-, h⟩ | h
    · exact .of_answers hc h
    · exact .of_answers hc h

theorem write (data : Array UInt8) : Settled m count v t (FileSystem.write id data) := by
  cases hfind : t.find? id with
  | none => exact .congr (fun p => FileSystem.write_eq_unknown hfind data) (.pure _)
  | some f =>
    refine .congr (fun p => FileSystem.write_eq hfind data)
      (.bind ?_ fun _ _ _ => .bind (.amendTable _) fun _ _ _ => .pure _)
    rcases (ht f hfind).follows_write hc data with ⟨-, h⟩ | h
    · exact .of_answers hc (.of_nil h)
    · exact .of_yields (.of_follows h ((ht f hfind).within_writeScript hc data) hc.covered)

end

end Settled

/-- Every request to a healthy file system always does the same. -/
theorem Request.settled (hs : Sound m count t) (r : Request) :
    ∃ response m' t', ∀ p : FaultPlan, p.Faultless → ∃ q : FaultPlan, q.Faultless ∧
      r.perform ⟨⟨m, count, p⟩, Volume.on m, t⟩
        = (response, ⟨⟨m', count, q⟩, Volume.on m, t'⟩) := by
  have hc := hs.consistent
  have hvolume {γ : Type} {f : Volume → DiskM γ}
      (h : Settled m count (Volume.on m) t (liftM (f (Volume.on m)))) :
      Settled m count (Volume.on m) t (do liftM (f (← FileSystem.getVolume))) :=
    h.congr fun p => FileSystem.getVolume_bind f
  cases r with
  | create path size =>
    refine (hvolume (f := (·.create path size)) ?_).respond _
    exact .of_performs (Volume.performs_create hc path size) (fun c hplan => Creation.within_script
      hc (Creation.serves_of_planFile hc hplan).valid) hc.covered
  | createDirectory path =>
    refine (hvolume (f := (·.createDirectory path)) ?_).respond _
    exact .of_performs (Volume.performs_createDirectory hc path) (fun c hplan =>
      Creation.within_script hc (Creation.serves_of_planDirectory hc hplan).valid) hc.covered
  | remove path => exact (Settled.remove hc path).respond _
  | openFile path draws => exact (Settled.openFile hc path draws).respond _
  | close id => exact (Settled.close id).respond _
  | read id buffer => exact (Settled.read hc (hs.current id) buffer).respond _
  | write id data => exact (Settled.write hc (hs.current id) data).respond _
  | list path =>
    refine (hvolume (f := (·.list path)) ?_).respond _
    exact .of_answers hc (hc.answers_list path)
  | listTree path =>
    refine (hvolume (f := (·.listTree path)) ?_).respond _
    exact .of_answers hc (hc.answers_listTree path)
  | freeSectors =>
    have hfree : Settled m count (Volume.on m) t FileSystem.freeSectors :=
      hvolume (.of_answers hc hc.answers_freeSectors)
    exact hfree.respond .counted
  | remount => exact ⟨_, _, _, fun p hp => Request.perform_remount hc hp⟩

namespace FileSystem

/-- The two differ at most in the plans of faults of their disks. -/
structure Alike (fs fs' : FileSystem) : Prop where
  medium_eq : fs'.disk.medium = fs.disk.medium
  count_eq : fs'.disk.count = fs.disk.count
  volume_eq : fs'.volume = fs.volume
  opened_eq : fs'.opened = fs.opened

/-- The answers to requests that are made one after another. -/
def answers (fs : FileSystem) : List Request → List Response
  | [] => []
  | r :: rest => (r.perform fs).1 :: (r.perform fs).2.answers rest

/-- The file system with all its files closed. -/
def closeAll (fs : FileSystem) : FileSystem := { fs with opened := {} }

/-- What a request answers, without what it leaves. -/
def result (fs : FileSystem) (act : FileSystemM α) : Except Failure α :=
  match act fs with
  | .ok a _ => .ok a
  | .error cause _ => .error cause

variable {fs fs' : FileSystem}

/-- A request has the same answer in both, and leaves them alike. -/
theorem Alike.perform (h : fs.Alike fs') (hfs : fs.Healthy) (hfs' : fs'.Healthy) (r : Request) :
    (r.perform fs').1 = (r.perform fs).1 ∧ (r.perform fs).2.Alike (r.perform fs').2 := by
  obtain ⟨⟨m, count, p⟩, v, t⟩ := fs
  obtain ⟨⟨m', count', p'⟩, v', t'⟩ := fs'
  obtain ⟨hm, hcount, hv, ht⟩ := h
  obtain ⟨hs, hp, hvolume⟩ := hfs
  have hp' := hfs'.faultless
  dsimp only at hm hcount hv ht hs hp hvolume hp'
  subst hm hcount hv ht hvolume
  obtain ⟨response, m'', t'', h⟩ := r.settled hs
  obtain ⟨q, -, heq⟩ := h p hp
  obtain ⟨q', -, heq'⟩ := h p' hp'
  rw [heq, heq']
  exact ⟨rfl, rfl, rfl, rfl, rfl⟩

theorem Alike.answers (h : fs.Alike fs') (hfs : fs.Healthy) (hfs' : fs'.Healthy)
    {rs : List Request} (hrs : fs.Admits rs) : fs'.answers rs = fs.answers rs := by
  induction rs generalizing fs fs' with
  | nil => rfl
  | cons r rest ih =>
    obtain ⟨hr, hrest⟩ := hrs
    obtain ⟨hresponse, hafter⟩ := h.perform hfs hfs' r
    have hr' : r.Admissible fs'.disk.medium fs'.opened := by rwa [h.medium_eq, h.opened_eq]
    rw [FileSystem.answers, FileSystem.answers, hresponse,
      ih hafter (hfs.step r hr) (hfs'.step r hr') hrest]

namespace Healthy

variable (h : fs.Healthy)
include h

theorem closeAll : fs.closeAll.Healthy where
  sound := ⟨h.sound.consistent, List.nodup_nil, nofun⟩
  faultless := h.faultless
  volume_eq := h.volume_eq

theorem run {rs : List Request} (hrs : fs.Admits rs) :
    (fs.run rs).Healthy ∧ (fs.run rs).volume = fs.volume := by
  induction rs generalizing fs with
  | nil => exact ⟨h, rfl⟩
  | cons r rest ih =>
    obtain ⟨hhealthy, hvolume⟩ := ih (h.step r hrs.1) hrs.2
    obtain ⟨m', t', q, -, -, hresult⟩ := h.hasOutcome r
    refine ⟨hhealthy, hvolume.trans ?_⟩
    rw [hresult, h.volume_eq]

theorem result_eq (h' : fs'.Healthy) (hm : fs'.disk.medium = fs.disk.medium)
    (hcount : fs'.disk.count = fs.disk.count) (f : Volume → DiskM α)
    (hf : ∃ result, Answers fs.disk.medium fs.disk.count (f (Volume.on fs.disk.medium)) result) :
    fs'.result (do liftM (f (← getVolume))) = fs.result (do liftM (f (← getVolume))) := by
  obtain ⟨x, hf⟩ := hf
  have hresult {fs : FileSystem} (h : fs.Healthy)
      (hf : Answers fs.disk.medium fs.disk.count (f (Volume.on fs.disk.medium)) x) :
      fs.result (do liftM (f (← getVolume))) = x := by
    have hlift : (do liftM (f (← getVolume)) : FileSystemM α) fs
        = (liftM (f (Volume.on fs.disk.medium)) : FileSystemM α) fs := by
      rw [← h.volume_eq]
      exact getVolume_bind f
    obtain ⟨q, -, heq⟩ := h.answer_eq hf hlift
    rw [result, heq]
    cases x <;> rfl
  rw [hresult h hf, hresult h' (by rwa [hm, hcount])]

end Healthy

/-! ## Mounting -/

/-- The file system `fs'` is `fs` with all its files closed. -/
structure Remounted (fs fs' : FileSystem) : Prop where
  medium_eq : fs'.disk.medium = fs.disk.medium
  count_eq : fs'.disk.count = fs.disk.count
  volume_eq : fs'.volume = fs.volume
  opened_eq : fs'.opened = {}
  list : ∀ path, fs'.result (FileSystem.list path) = fs.result (FileSystem.list path)
  listTree : ∀ path, fs'.result (FileSystem.listTree path) = fs.result (FileSystem.listTree path)
  freeSectors : fs'.result FileSystem.freeSectors = fs.result FileSystem.freeSectors
  openPath : ∀ path, fs'.result (FileSystem.openPath path) = fs.result (FileSystem.openPath path)
  readPath : ∀ path position buffer, fs'.result (FileSystem.readPath path position buffer)
    = fs.result (FileSystem.readPath path position buffer)
  /-- Nor can the two be told apart by what is requested from then on. -/
  answers : ∀ rs, fs.closeAll.Admits rs → fs'.answers rs = fs.closeAll.answers rs

/-- A healthy file system is found again by mounting its disk. -/
theorem Healthy.remounted (h : fs.Healthy) : ∃ disk fs', fs.unmount = .ok disk ∧
    FileSystem.mount disk = .ok fs' ∧ fs.Remounted fs' := by
  obtain ⟨⟨m, count, p⟩, v, t⟩ := fs
  obtain ⟨hs, hp, hv⟩ := h
  dsimp only at hs hp hv
  subst hv
  have hc := hs.consistent
  have hfs : Healthy ⟨⟨m, count, p⟩, Volume.on m, t⟩ := .of_sound hs hp
  obtain ⟨q, hq, hmount⟩ := mount_eq hc hp
  have hfs' : Healthy ⟨⟨m, count, q⟩, Volume.on m, {}⟩ :=
    .of_sound ⟨hc, List.nodup_nil, nofun⟩ hq
  refine ⟨_, _, unmount_eq hp, hmount, rfl, rfl, rfl, rfl, fun path => ?_, fun path => ?_, ?_,
    fun path => ?_, fun path position buffer => ?_, fun rs hrs => ?_⟩
  · exact hfs.result_eq hfs' rfl rfl (·.list path) ⟨_, hc.answers_list path⟩
  · exact hfs.result_eq hfs' rfl rfl (·.listTree path) ⟨_, hc.answers_listTree path⟩
  · exact hfs.result_eq hfs' rfl rfl Volume.freeSectors ⟨_, hc.answers_freeSectors⟩
  · exact hfs.result_eq hfs' rfl rfl (·.openPath path) ⟨_, hc.answers_openPath path⟩
  · exact hfs.result_eq hfs' rfl rfl (·.readPath path position buffer)
      (hc.exists_answers_readPath path position buffer)
  · have halike : (FileSystem.closeAll ⟨⟨m, count, p⟩, Volume.on m, t⟩).Alike
        ⟨⟨m, count, q⟩, Volume.on m, {}⟩ := ⟨rfl, rfl, rfl, rfl⟩
    exact halike.answers hfs.closeAll hfs' hrs

end FileSystem

/--
**A volume lasts.** However a run went on from a new volume, its disk can be given up and mounted
again. The file system is then what it was, all files closed: the headers of the map and of the root
are those that the new volume had in memory, the medium is the same, and so is every answer.
-/
theorem lasts_through_mounting {disk : Disk} {fs : FileSystem} (hfaults : disk.faults.Faultless)
    (hmedium : sectorSize * disk.count ≤ disk.medium.size)
    (hformat : FileSystem.format disk = .ok fs) {rs : List Request} (hrs : fs.Admits rs) :
    ∃ disk' fs', (fs.run rs).unmount = .ok disk' ∧ FileSystem.mount disk' = .ok fs' ∧
      fs'.volume = fs.volume ∧ (fs.run rs).Remounted fs' := by
  obtain ⟨hhealthy, hvolume⟩ :=
    (FileSystem.Healthy.of_format hfaults hmedium hformat).run hrs
  obtain ⟨disk', fs', hunmount, hmount, h⟩ := hhealthy.remounted
  exact ⟨disk', fs', hunmount, hmount, h.volume_eq.trans hvolume, h⟩

/-- A file that was made and written in a new volume lasts. -/
theorem lasts_through_mounting_written : ∃ disk fs rs, disk.faults.Faultless ∧
    sectorSize * disk.count ≤ disk.medium.size ∧ FileSystem.format disk = .ok fs ∧
    rs = [.create "/a" 200, .openFile "/a" [5], .write 5 #[1, 2, 3]] ∧ fs.Admits rs ∧
    ∃ disk' fs', (fs.run rs).unmount = .ok disk' ∧ FileSystem.mount disk' = .ok fs' ∧
      fs'.volume = fs.volume ∧ (fs.run rs).Remounted fs' := by
  obtain ⟨m, p, q, hp, hsize, hq, hformat⟩ := FileSystem.exists_format_sixteen
  have hrs := (FileSystem.Healthy.of_format hp hsize hformat).admits_of_flat
    (Formatting.flat_after Formatting.valid_sixteen)
    [.create "/a" 200, .openFile "/a" [5], .write 5 #[1, 2, 3]] (by simp)
  exact ⟨_, _, _, hp, hsize, hformat, rfl, hrs, lasts_through_mounting hp hsize hformat hrs⟩

end IndexedDisk
