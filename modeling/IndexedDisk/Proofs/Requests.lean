import IndexedDisk.Proofs.Formatting
import IndexedDisk.Proofs.Handles
import IndexedDisk.Proofs.Lookup
import IndexedDisk.Proofs.Reading
import IndexedDisk.Proofs.Removal

/-!
# Runs of a file system

A run starts with a new volume on a disk without faults and goes on with requests, in any order and
with any answers (`Reachable`). Writes go through ids that are open on regular files; all else that
a request is given is arbitrary.

* `Outcome`: all that a request can do to a file system that is `Healthy`, said once
  (`Healthy.hasOutcome`).
* `Outcome.sound`: whatever a request does, the tree stays well formed and the open files current.
* `Healthy.step`, `Reachable.healthy`: every file system that is reached is healthy.
-/

open IndexedDisk.Tree IndexedDisk.OpenFile

namespace IndexedDisk

/-! ## Requests -/

/-- A request to a file system. -/
inductive Request where
  | create (path : String) (size : Nat)
  | createDirectory (path : String)
  | remove (path : String)
  | openFile (path : String) (draws : List Int32)
  | close (id : Int32)
  | read (id : Int32) (buffer : Array UInt8)
  | write (id : Int32) (data : Array UInt8)
  | list (path : String)
  | listTree (path : String)
  | freeSectors
  /-- The disk is given up and mounted again. -/
  | remount

/-- An answer to a request. -/
inductive Response where
  | done
  | failed (cause : Failure)
  | opened (id : Option Int32)
  | read (count : Nat) (buffer : Array UInt8)
  | written (count : Nat)
  | listed (entries : List Entry)
  | listedTree (entries : List (Nat × Entry))
  | counted (sectors : Nat)

namespace Request

/-- The answer of a request, and what it leaves whether or not it failed. -/
def respond {α : Type} (f : α → Response) (act : FileSystemM α) (fs : FileSystem) :
    Response × FileSystem :=
  match act fs with
  | .ok a fs => (f a, fs)
  | .error cause fs => (.failed cause, fs)

/-- Unmounts a file system and mounts its disk again. No file is open after that. -/
def performRemount (fs : FileSystem) : Response × FileSystem :=
  match fs.unmount with
  | .error (cause, disk) => (.failed cause, ⟨disk, fs.volume, fs.opened⟩)
  | .ok disk =>
    match FileSystem.mount disk with
    | .error (cause, disk) => (.failed cause, ⟨disk, fs.volume, {}⟩)
    | .ok fs => (.done, fs)

/-- Makes a request to a file system. -/
def perform (fs : FileSystem) : Request → Response × FileSystem
  | create path size => respond (fun _ => .done) (FileSystem.create path size) fs
  | createDirectory path => respond (fun _ => .done) (FileSystem.createDirectory path) fs
  | remove path => respond (fun _ => .done) (FileSystem.remove path) fs
  | openFile path draws => respond .opened (FileSystem.openFile path draws) fs
  | close id => respond (fun _ => .done) (FileSystem.close id) fs
  | read id buffer => respond (fun r => .read r.1 r.2) (FileSystem.read id buffer) fs
  | write id data => respond .written (FileSystem.write id data) fs
  | list path => respond .listed (FileSystem.list path) fs
  | listTree path => respond .listedTree (FileSystem.listTree path) fs
  | freeSectors => respond .counted FileSystem.freeSectors fs
  | remount => performRemount fs

end Request

/-- A regular file has its header in this sector. -/
def Tree.Regular (m : Medium) (s : Nat) : Prop :=
  ∃ d i e, Reached m d ∧ slot? m d i = some e ∧ ¬ e.isDirectory = true ∧ Word.wide e.sector = s

/-- A write goes through an id that is open on a regular file, if it is open at all. -/
def Request.Admissible (m : Medium) (t : OpenTable) : Request → Prop
  | write id _ => ∀ f, t.find? id = some f → Regular m (Word.wide f.sector)
  | _ => True

/-- The file systems that a run comes to which starts with a new volume on a disk without faults. -/
inductive Reachable : FileSystem → Prop
  | format {disk : Disk} {fs : FileSystem} (hfaults : disk.faults.Faultless)
      (hmedium : sectorSize * disk.count ≤ disk.medium.size)
      (hformat : FileSystem.format disk = .ok fs) : Reachable fs
  | perform {fs : FileSystem} (hfs : Reachable fs) (r : Request)
      (hr : r.Admissible fs.disk.medium fs.opened) : Reachable (r.perform fs).2

/-! ## Healthy file systems -/

/-- The file is open as the tree on the medium has it. -/
structure OpenFile.Current (m : Medium) (f : OpenFile) : Prop where
  header_eq : f.header = Header.stored m (Word.wide f.sector)
  position_le : f.position ≤ f.length
  named : ∃ d i, Names m (.entry d i) (Word.wide f.sector)

/-- The tree is well formed, and all open files are current. -/
structure Sound (m : Medium) (count : Nat) (t : OpenTable) : Prop where
  consistent : Consistent m count
  distinct : t.Distinct
  current : ∀ id f, t.find? id = some f → f.Current m

/-- The disk has no faults, and all that is on it and open in it is sound. -/
structure FileSystem.Healthy (fs : FileSystem) : Prop where
  sound : Sound fs.disk.medium fs.disk.count fs.opened
  faultless : fs.disk.faults.Faultless
  volume_eq : fs.volume = Volume.on fs.disk.medium

/--
All that a request can do to the medium and the open files of a healthy file system, and the answer
it then gives.
-/
inductive Outcome (m : Medium) (count : Nat) (opened : OpenTable) :
    Request → Response → Medium → OpenTable → Prop
  | failed {r cause} (hr : ¬ r matches .read .. | .write .. | .remount) :
      Outcome m count opened r (.failed cause) m opened
  /-- A transfer of more bytes than can be held. -/
  | overlong {r} {bytes : Array UInt8} (hbytes : maxRoom < bytes.size)
      (hr : ∃ id, r = .read id bytes ∨ r = .write id bytes) :
      Outcome m count opened r (.failed (.broken .arithmetic)) m opened
  | created {path size} {c : Creation} (hc : c.Serves m count path size .file) :
      Outcome m count opened (.create path size) .done (c.after m count) opened
  | createdDirectory {path} {c : Creation}
      (hc : c.Serves m count path directoryFileSize .directory) :
      Outcome m count opened (.createDirectory path) .done (c.after m count) opened
  | removed {path} {r : Removal} (hr : r.Serves m path) :
      Outcome m count opened (.remove path) .done (r.after m count)
        (opened.eraseSector r.entry.sector)
  | openedNone {path draws} : Outcome m count opened (.openFile path draws) (.opened none) m opened
  | opened {path draws id p name e} (hleads : LeadsTo m path p name)
      (hfind : (table m (Word.wide p)).find? name = some e) (hid : opened.pick? draws = some id) :
      Outcome m count opened (.openFile path draws) (.opened (some id)) m
        (opened.insert id (.opened m e.sector))
  | closed {id f} (hf : opened.find? id = some f) :
      Outcome m count opened (.close id) .done m (opened.erase id)
  | readUnknown {id buffer} (hid : opened.find? id = none) :
      Outcome m count opened (.read id buffer) (.read 0 buffer) m opened
  | read {id buffer f k} (hf : opened.find? id = some f)
      (hk : k = min (f.position + buffer.size) f.length - f.position) :
      Outcome m count opened (.read id buffer) (.read k (Bytes.overlay buffer 0
        ((f.header.contents m).extract f.position (f.position + buffer.size)))) m
        (opened.replace id (f.seek (f.position + k)))
  | writtenUnknown {id data} (hid : opened.find? id = none) :
      Outcome m count opened (.write id data) (.written 0) m opened
  | written {id data f k} (hf : opened.find? id = some f)
      (hk : k = min (f.position + data.size) f.length - f.position) :
      Outcome m count opened (.write id data) (.written k)
        ((f.header.writeScript m f.position data).medium m)
        (opened.replace id (f.seek (f.position + k)))
  | listed {r response} (hr : r matches .list .. | .listTree .. | .freeSectors) :
      Outcome m count opened r response m opened
  | remounted : Outcome m count opened .remount .done m {}

theorem Volume.answers_mount {m : Medium} {count : Nat} (hc : Consistent m count) :
    Answers m count mount (.ok (Volume.on m)) := by
  refine (answers_openFiles (hc.names_lt .root)).bind
    ((Answers.of_nil Follows.sectorCount).bind ?_)
  have hmap : (Volume.on m).mapFile.length = SectorMap.imageSize count := hc.map_length
  have hroot : (Volume.on m).rootFile.length = directoryFileSize := hc.directory_length _ .root
  rw [if_pos ⟨hmap, hroot⟩]
  exact Answers.pure _

/-! ## Reading and writing a file -/

/-- There is nothing after the position, or what is `n` bytes after it has an address. -/
def OpenFile.InRange (f : OpenFile) (position n : Nat) : Prop :=
  f.header.length ≤ position ∨ position + n < 0x10000000000000000

namespace OpenFile.Current

variable {m : Medium} {count : Nat} {f : OpenFile} (hf : f.Current m) (hc : Consistent m count)
include hf hc

theorem intact : f.header.Intact m := by
  obtain ⟨d, i, hs⟩ := hf.named
  rw [hf.header_eq]
  exact hc.intact _ _ hs

theorem separate : f.header.Separate m := by
  obtain ⟨d, i, hs⟩ := hf.named
  rw [hf.header_eq]
  exact hc.separate hs

theorem sectors_lt {s : Nat} (hs : s ∈ f.header.data m ++ f.header.index m) : s < count := by
  obtain ⟨d, i, ho⟩ := hf.named
  rw [hf.header_eq] at hs
  exact hc.sectors_lt ho hs

/-- Only a transfer of more bytes than can be held goes past all addresses. -/
theorem overlong {position n : Nat} (hposition : position ≤ f.header.length)
    (hn : 0x10000000000000000 ≤ position + n) : maxRoom < n := by
  have hle := (hf.intact hc).length_le
  simp only [maxFileSize, maxFileSectors, sectorSize, directPointers, blockPointers] at hle
  simp only [maxRoom]
  omega

theorem within_writeScript (data : Array UInt8) :
    (f.header.writeScript m f.position data).Within count := fun _ ht =>
  hf.sectors_lt hc (Header.mem_writeScript f.position data (hf.intact hc) ht)

section

variable {position : Nat} {buffer data : Array UInt8}

theorem follows_readAt_inRange (hin : f.InRange position buffer.size) :
    ∃ sectors ⊆ f.header.data m ++ f.header.index m,
      Follows m count (Disk.runOn buffer (f.readAt position)) (Script.reads sectors)
        (.ok (min (position + buffer.size) f.length - position, Bytes.overlay buffer 0
          ((f.header.contents m).extract position (position + buffer.size)))) :=
  Header.exists_follows_readAt (hf.intact hc) hin

theorem follows_readAt_overlong (hout : ¬ f.InRange position buffer.size) :
    maxRoom < buffer.size ∧ Follows m count (Disk.runOn buffer (f.readAt position)) []
      (.error (.broken .arithmetic)) := by
  rw [InRange, not_or, Nat.not_le, Nat.not_lt] at hout
  have hbytes := hf.overlong hc (Nat.le_of_lt hout.1) hout.2
  refine ⟨hbytes, ?_⟩
  have hstop : f.stop position buffer.size = .error .arithmetic := if_neg (Nat.not_lt.mpr hout.2)
  have hskip : ¬ (f.length ≤ position ∨ buffer.size = 0) := by
    have hlt : position < f.length := hout.1
    omega
  have hroom : Follows m count (Disk.runOn buffer room) [] (.ok (buffer.size, buffer)) :=
    fun _ => rfl
  refine Follows.of_script (Follows.runOn_bind hroom ?_) (List.append_nil [])
  rw [if_neg hskip, hstop]
  exact fun _ => rfl

theorem follows_read_inRange (hin : f.InRange f.position buffer.size) :
    ∃ sectors ⊆ f.header.data m ++ f.header.index m,
      Follows m count (Disk.runOn buffer f.read) (Script.reads sectors)
        (.ok ((min (f.position + buffer.size) f.length - f.position,
            f.seek (f.position + (min (f.position + buffer.size) f.length - f.position))),
          Bytes.overlay buffer 0
            ((f.header.contents m).extract f.position (f.position + buffer.size)))) := by
  obtain ⟨sectors, hsub, h⟩ := hf.follows_readAt_inRange hc hin
  exact ⟨sectors, hsub,
    Follows.of_script (Follows.runOn_bind h (Follows.runOn_pure _ _)) (List.append_nil _)⟩

theorem follows_read_overlong (hout : ¬ f.InRange f.position buffer.size) :
    Follows m count (Disk.runOn buffer f.read) [] (.error (.broken .arithmetic)) :=
  Follows.runOn_bind_error (hf.follows_readAt_overlong hc hout).2

theorem follows_write_inRange (hin : f.InRange f.position data.size) :
    Follows m count (f.write data) (f.header.writeScript m f.position data)
      (.ok (min (f.position + data.size) f.length - f.position,
        f.seek (f.position + (min (f.position + data.size) f.length - f.position)))) :=
  Follows.bind_nil
    ((hf.intact hc).follows_writeAt (hf.separate hc) f.position data hin) (Follows.pure _)

theorem follows_write_overlong (hout : ¬ f.InRange f.position data.size) :
    maxRoom < data.size ∧ Follows m count (f.write data) [] (.error (.broken .arithmetic)) := by
  rw [InRange, not_or, Nat.not_le, Nat.not_lt] at hout
  have hbytes := hf.overlong hc (Nat.le_of_lt hout.1) hout.2
  refine ⟨hbytes, Follows.bind_error ?_⟩
  have hstop : f.stop f.position data.size = .error .arithmetic := if_neg (Nat.not_lt.mpr hout.2)
  have hskip : ¬ (f.length ≤ f.position ∨ data.size = 0) := by
    have hlt : f.position < f.length := hout.1
    omega
  unfold writeAt
  rw [if_neg hskip]
  exact Follows.bind_error (Follows.of_error hstop)

end

theorem follows_readAt (position : Nat) (buffer : Array UInt8) :
    (maxRoom < buffer.size ∧
      Follows m count (Disk.runOn buffer (f.readAt position)) [] (.error (.broken .arithmetic))) ∨
    ∃ sectors ⊆ f.header.data m ++ f.header.index m,
      Follows m count (Disk.runOn buffer (f.readAt position)) (Script.reads sectors)
        (.ok (min (position + buffer.size) f.length - position, Bytes.overlay buffer 0
          ((f.header.contents m).extract position (position + buffer.size)))) := by
  by_cases hin : f.InRange position buffer.size
  · exact Or.inr (hf.follows_readAt_inRange hc hin)
  · exact Or.inl (hf.follows_readAt_overlong hc hin)

theorem follows_read (buffer : Array UInt8) :
    (maxRoom < buffer.size ∧
      Follows m count (Disk.runOn buffer f.read) [] (.error (.broken .arithmetic))) ∨
    ∃ sectors ⊆ f.header.data m ++ f.header.index m,
      Follows m count (Disk.runOn buffer f.read) (Script.reads sectors)
        (.ok ((min (f.position + buffer.size) f.length - f.position,
            f.seek (f.position + (min (f.position + buffer.size) f.length - f.position))),
          Bytes.overlay buffer 0
            ((f.header.contents m).extract f.position (f.position + buffer.size)))) := by
  by_cases hin : f.InRange f.position buffer.size
  · exact Or.inr (hf.follows_read_inRange hc hin)
  · exact Or.inl ⟨(hf.follows_readAt_overlong hc hin).1, hf.follows_read_overlong hc hin⟩

theorem answers_read (buffer : Array UInt8) :
    (maxRoom < buffer.size ∧
      Answers m count (Disk.runOn buffer f.read) (.error (.broken .arithmetic))) ∨
    Answers m count (Disk.runOn buffer f.read)
      (.ok ((min (f.position + buffer.size) f.length - f.position,
          f.seek (f.position + (min (f.position + buffer.size) f.length - f.position))),
        Bytes.overlay buffer 0
          ((f.header.contents m).extract f.position (f.position + buffer.size)))) := by
  rcases hf.follows_read hc buffer with ⟨hbytes, h⟩ | ⟨sectors, hsub, h⟩
  · exact Or.inl ⟨hbytes, Answers.of_nil h⟩
  · exact Or.inr ⟨sectors, fun s hs => hf.sectors_lt hc (hsub hs), h⟩

theorem follows_write (data : Array UInt8) :
    (maxRoom < data.size ∧ Follows m count (f.write data) [] (.error (.broken .arithmetic))) ∨
    Follows m count (f.write data) (f.header.writeScript m f.position data)
      (.ok (min (f.position + data.size) f.length - f.position,
        f.seek (f.position + (min (f.position + data.size) f.length - f.position)))) := by
  by_cases hin : f.InRange f.position data.size
  · exact Or.inr (hf.follows_write_inRange hc hin)
  · exact Or.inl (hf.follows_write_overlong hc hin)

end OpenFile.Current

/-! ## What a request does -/

namespace FileSystem

variable {α : Type} {disk disk' : Disk} {v : Volume} {t : OpenTable}

theorem getVolume_bind (f : Volume → DiskM α) :
    (do liftM (f (← getVolume)) : FileSystemM α) ⟨disk, v, t⟩
      = (liftM (f v) : FileSystemM α) ⟨disk, v, t⟩ := rfl

theorem getTable_bind (g : OpenTable → FileSystemM α) :
    (getTable >>= g) ⟨disk, v, t⟩ = g t ⟨disk, v, t⟩ := rfl

theorem handle_bind (id : Int32) (g : Option OpenFile → FileSystemM α) :
    (handle id >>= g) ⟨disk, v, t⟩ = g (t.find? id) ⟨disk, v, t⟩ := rfl

section

variable {d : Disk} {id : Int32} {f : OpenFile}

theorem remove_eq (path : String) : FileSystem.remove path ⟨d, v, t⟩
    = (liftM (v.remove path) >>= fun sector => amendTable (·.eraseSector sector) : FileSystemM _)
      ⟨d, v, t⟩ := by
  rw [FileSystem.remove, bind_apply]
  exact rfl

theorem openFile_eq (path : String) (draws : List Int32) : FileSystem.openFile path draws ⟨d, v, t⟩
    = (liftM (v.openPath path) >>= fun file => do
        match (← getTable).pick? draws with
        | none => pure none
        | some id =>
          amendTable (·.insert id file)
          pure (some id) : FileSystemM _) ⟨d, v, t⟩ := by
  rw [FileSystem.openFile, FileSystem.openPath]
  exact rfl

theorem read_eq (hfind : t.find? id = some f) (buffer : Array UInt8) :
    FileSystem.read id buffer ⟨d, v, t⟩
      = ((liftM (Disk.runOn buffer f.read) : FileSystemM _) >>= fun r => do
          amendTable (·.replace id r.1.2)
          pure (r.1.1, r.2) : FileSystemM _) ⟨d, v, t⟩ := by
  rw [FileSystem.read, handle_bind, hfind]

theorem read_eq_unknown (hfind : t.find? id = none) (buffer : Array UInt8) :
    FileSystem.read id buffer ⟨d, v, t⟩ = answer (.ok (0, buffer)) ⟨d, v, t⟩ := by
  rw [FileSystem.read, handle_bind, hfind]
  rfl

theorem write_eq (hfind : t.find? id = some f) (data : Array UInt8) :
    FileSystem.write id data ⟨d, v, t⟩
      = ((liftM (f.write data) : FileSystemM _) >>= fun r => do
          amendTable (·.replace id r.2)
          pure r.1 : FileSystemM _) ⟨d, v, t⟩ := by
  rw [FileSystem.write, handle_bind, hfind]

theorem write_eq_unknown (hfind : t.find? id = none) (data : Array UInt8) :
    FileSystem.write id data ⟨d, v, t⟩ = answer (.ok 0) ⟨d, v, t⟩ := by
  rw [FileSystem.write, handle_bind, hfind]
  rfl

theorem close_eq (hfind : t.find? id = some f) :
    FileSystem.close id ⟨d, v, t⟩ = answer (.ok ()) ⟨d, v, t.erase id⟩ := by
  rw [FileSystem.close, handle_bind, hfind]
  rfl

theorem close_eq_unknown (hfind : t.find? id = none) : FileSystem.close id ⟨d, v, t⟩
    = answer (.error (.refused (.invalidHandle id))) ⟨d, v, t⟩ := by
  rw [FileSystem.close, handle_bind, hfind]
  rfl

end

theorem lift_answer {act : DiskM α} {result : Except Failure α}
    (h : act disk = answer result disk') :
    (liftM act : FileSystemM α) ⟨disk, v, t⟩ = answer result ⟨disk', v, t⟩ := by
  simp only [liftM, monadLift, MonadLift.monadLift, h]
  cases result <;> rfl

section

variable {β : Type} {act : DiskM α} {fs fs' : FileSystem} {cause : Failure}

theorem exists_of_lift_error (h : (liftM act : FileSystemM α) fs = .error cause fs') :
    ∃ disk', act fs.disk = .error cause disk' ∧ fs' = { fs with disk := disk' } := by
  obtain ⟨disk, v, t⟩ := fs
  simp only [liftM, monadLift, MonadLift.monadLift] at h
  cases hact : act disk with
  | ok a disk' =>
    rw [hact] at h
    cases h
  | error e disk' =>
    rw [hact] at h
    cases h
    exact ⟨disk', rfl, rfl⟩

theorem exists_of_lift_bind_error {g : α → FileSystemM β}
    (hg : ∀ a fs, ∃ b fs', g a fs = .ok b fs')
    (h : (liftM act >>= g : FileSystemM β) fs = .error cause fs') :
    ∃ disk', act fs.disk = .error cause disk' ∧ fs' = { fs with disk := disk' } := by
  rw [bind_apply] at h
  cases hact : (liftM act : FileSystemM α) fs with
  | ok a fs₁ =>
    obtain ⟨b, fs₂, hb⟩ := hg a fs₁
    rw [hact] at h
    exact absurd (hb.symm.trans h) nofun
  | error e fs₁ =>
    rw [hact] at h
    cases h
    exact exists_of_lift_error hact

end

end FileSystem

namespace Request

variable {α : Type} {f : α → Response} {act : FileSystemM α} {fs fs' : FileSystem}

theorem respond_ok {a : α} (h : act fs = answer (.ok a) fs') : respond f act fs = (f a, fs') := by
  rw [respond, h]
  rfl

theorem respond_error {cause : Failure} (h : act fs = answer (.error cause) fs') :
    respond f act fs = (.failed cause, fs') := by
  rw [respond, h]
  rfl

theorem eq_error_of_respond (hf : ∀ a cause, f a ≠ .failed cause) {cause : Failure}
    (h : (respond f act fs).1 = .failed cause) : act fs = .error cause (respond f act fs).2 := by
  unfold respond at h ⊢
  cases hact : act fs with
  | ok a fs' =>
    rw [hact] at h
    exact absurd h (hf a cause)
  | error e fs' =>
    rw [hact] at h
    cases h
    rfl

theorem perform_remove_of_error {disk disk' : Disk} {v : Volume} {t : OpenTable} {path : String}
    {cause : Failure} (h : v.remove path disk = answer (.error cause) disk') :
    (Request.remove path).perform ⟨disk, v, t⟩ = (.failed cause, ⟨disk', v, t⟩) := by
  have hremove := FileSystem.remove_eq (v := v) (d := disk) (t := t) path
  rw [bind_apply, FileSystem.lift_answer h] at hremove
  exact respond_error hremove

end Request

/-- The request has an outcome, and leaves a disk without faults. -/
def HasOutcome (m : Medium) (count : Nat) (opened : OpenTable) (r : Request)
    (result : Response × FileSystem) : Prop :=
  ∃ m' opened' q, FaultPlan.Faultless q ∧ Outcome m count opened r result.1 m' opened' ∧
    result.2 = ⟨⟨m', count, q⟩, Volume.on m, opened'⟩

section

variable {m : Medium} {count : Nat} {p : FaultPlan} {t : OpenTable} (hc : Consistent m count)
  (hp : p.Faultless)
include hc hp

omit hc in
theorem Request.respond_refused {κ α : Type} {script : κ → Script} {result : κ → α}
    {plan : Except Refusal κ} {act : DiskM α} {cause : Refusal} (hm : sectorSize * count ≤ m.size)
    (h : Performs m count script result plan act) (hplan : plan = .error cause)
    {f : α → Response} {act' : FileSystemM α} (hact' : act' ⟨⟨m, count, p⟩, Volume.on m, t⟩
      = (liftM act : FileSystemM α) ⟨⟨m, count, p⟩, Volume.on m, t⟩) : ∃ q, FaultPlan.Faultless q ∧
      Request.respond f act' ⟨⟨m, count, p⟩, Volume.on m, t⟩
        = (.failed (.refused cause), ⟨⟨m, count, q⟩, Volume.on m, t⟩) := by
  obtain ⟨q, hq, hact⟩ := (h.answers cause hplan).eval hp hm
  exact ⟨q, hq, Request.respond_error (hact'.trans (FileSystem.lift_answer hact))⟩

theorem Request.respond_made {α : Type} {result : Creation → α} {plan : Except Refusal Creation}
    {act : DiskM α} {c : Creation}
    (h : Performs m count (Creation.script · m count) result plan act) (hplan : plan = .ok c)
    (hv : c.Valid m count) {f : α → Response} {act' : FileSystemM α}
    (hact' : act' ⟨⟨m, count, p⟩, Volume.on m, t⟩
      = (liftM act : FileSystemM α) ⟨⟨m, count, p⟩, Volume.on m, t⟩) : ∃ q, FaultPlan.Faultless q ∧
      Request.respond f act' ⟨⟨m, count, p⟩, Volume.on m, t⟩
        = (f (result c), ⟨⟨c.after m count, count, q⟩, Volume.on m, t⟩) := by
  obtain ⟨q, hq, hact⟩ := (h.commits c hplan).eval hp (Creation.within_script hc hv) hc.covered
  rw [Creation.medium_script] at hact
  exact ⟨q, hq, Request.respond_ok (hact'.trans (FileSystem.lift_answer hact))⟩

theorem hasOutcome_create {act : DiskM Unit} {path : String} {size : Nat} {kind : EntryKind}
    {r : Request} {plan : Except Refusal Creation}
    (h : Performs m count (Creation.script · m count) (fun _ => ()) plan act)
    (hserves : ∀ c, plan = .ok c → c.Serves m count path size kind)
    (hr : ¬ r matches .read .. | .write .. | .remount)
    (hmade : ∀ c : Creation, c.Serves m count path size kind →
      Outcome m count t r .done (c.after m count) t) {act' : FileSystemM Unit}
    (hact' : act' ⟨⟨m, count, p⟩, Volume.on m, t⟩
      = (liftM act : FileSystemM Unit) ⟨⟨m, count, p⟩, Volume.on m, t⟩) :
    HasOutcome m count t r
      (Request.respond (fun _ => .done) act' ⟨⟨m, count, p⟩, Volume.on m, t⟩) := by
  cases hplan : plan with
  | error cause =>
    obtain ⟨q, hq, heq⟩ := Request.respond_refused hp hc.covered h hplan hact'
    rw [heq]
    exact ⟨m, t, q, hq, .failed hr, rfl⟩
  | ok c =>
    have hserves := hserves c hplan
    obtain ⟨q, hq, heq⟩ := Request.respond_made hc hp h hplan hserves.valid hact'
    rw [heq]
    exact ⟨_, t, q, hq, hmade c hserves, rfl⟩

theorem Request.perform_create {path : String} {size : Nat} {c : Creation}
    (hplan : Creation.plan m count path size .file = .ok c) : ∃ q, FaultPlan.Faultless q ∧
      (Request.create path size).perform ⟨⟨m, count, p⟩, Volume.on m, t⟩
        = (.done, ⟨⟨c.after m count, count, q⟩, Volume.on m, t⟩) := by
  have hserves := Creation.serves_of_planFile hc hplan
  exact Request.respond_made hc hp (Volume.performs_create hc path size) hplan hserves.valid
    (FileSystem.getVolume_bind (·.create path size))

theorem Request.perform_create_refused {path : String} {size : Nat} {cause : Refusal}
    (hplan : Creation.plan m count path size .file = .error cause) : ∃ q, FaultPlan.Faultless q ∧
      (Request.create path size).perform ⟨⟨m, count, p⟩, Volume.on m, t⟩
        = (.failed (.refused cause), ⟨⟨m, count, q⟩, Volume.on m, t⟩) :=
  Request.respond_refused hp hc.covered (Volume.performs_create hc path size) hplan
    (FileSystem.getVolume_bind (·.create path size))

theorem Request.perform_createDirectory {path : String} {c : Creation}
    (hplan : Creation.planDirectory m count path = .ok c) : ∃ q, FaultPlan.Faultless q ∧
      (Request.createDirectory path).perform ⟨⟨m, count, p⟩, Volume.on m, t⟩
        = (.done, ⟨⟨c.after m count, count, q⟩, Volume.on m, t⟩) := by
  have hserves := Creation.serves_of_planDirectory hc hplan
  exact Request.respond_made hc hp (Volume.performs_createDirectory hc path) hplan hserves.valid
    (FileSystem.getVolume_bind (·.createDirectory path))

theorem Request.perform_createDirectory_refused {path : String} {cause : Refusal}
    (hplan : Creation.planDirectory m count path = .error cause) : ∃ q, FaultPlan.Faultless q ∧
      (Request.createDirectory path).perform ⟨⟨m, count, p⟩, Volume.on m, t⟩
        = (.failed (.refused cause), ⟨⟨m, count, q⟩, Volume.on m, t⟩) :=
  Request.respond_refused hp hc.covered (Volume.performs_createDirectory hc path) hplan
    (FileSystem.getVolume_bind (·.createDirectory path))

omit hc in
theorem hasOutcome_reads {α : Type} {act : DiskM α} {f : α → Response} {r : Request}
    (h : ReadsOnly act) (hr : r matches .list .. | .listTree .. | .freeSectors)
    {act' : FileSystemM α} (hact' : act' ⟨⟨m, count, p⟩, Volume.on m, t⟩
      = (liftM act : FileSystemM α) ⟨⟨m, count, p⟩, Volume.on m, t⟩) :
    HasOutcome m count t r (Request.respond f act' ⟨⟨m, count, p⟩, Volume.on m, t⟩) := by
  obtain ⟨result, n, hact⟩ := h m count p
  cases result with
  | ok a =>
    rw [Request.respond_ok (hact'.trans (FileSystem.lift_answer hact))]
    exact ⟨m, t, _, hp.afterReads n, .listed hr, rfl⟩
  | error cause =>
    rw [Request.respond_error (hact'.trans (FileSystem.lift_answer hact))]
    exact ⟨m, t, _, hp.afterReads n, .listed hr, rfl⟩

theorem Request.perform_remove_refused {path : String} {cause : Refusal}
    (hplan : Removal.plan m path = .error cause) : ∃ q, FaultPlan.Faultless q ∧
      (Request.remove path).perform ⟨⟨m, count, p⟩, Volume.on m, t⟩
        = (.failed (.refused cause), ⟨⟨m, count, q⟩, Volume.on m, t⟩) := by
  obtain ⟨q, hq, hact⟩ :=
    ((Volume.performs_remove hc path).answers cause hplan).eval hp hc.covered
  exact ⟨q, hq, Request.perform_remove_of_error hact⟩

theorem Request.perform_remove {path : String} {r : Removal} (hplan : Removal.plan m path = .ok r) :
    ∃ q, FaultPlan.Faultless q ∧ (Request.remove path).perform ⟨⟨m, count, p⟩, Volume.on m, t⟩
      = (.done, ⟨⟨r.after m count, count, q⟩, Volume.on m, t.eraseSector r.entry.sector⟩) := by
  have hremove := FileSystem.remove_eq (v := Volume.on m) (d := ⟨m, count, p⟩) (t := t) path
  have hserves := Removal.serves_of_plan hplan
  obtain ⟨q, hq, hact⟩ := ((Volume.performs_remove hc path).commits r hplan).eval hp
    (Removal.within_script hc hserves.valid) hc.covered
  rw [Removal.medium_script] at hact
  rw [bind_apply, FileSystem.lift_answer hact] at hremove
  exact ⟨q, hq, Request.respond_ok hremove⟩

theorem hasOutcome_remove (path : String) : HasOutcome m count t (.remove path)
    ((Request.remove path).perform ⟨⟨m, count, p⟩, Volume.on m, t⟩) := by
  cases hplan : Removal.plan m path with
  | error cause =>
    obtain ⟨q, hq, heq⟩ := Request.perform_remove_refused (t := t) hc hp hplan
    rw [heq]
    exact ⟨m, t, q, hq, .failed (by simp), rfl⟩
  | ok r =>
    obtain ⟨q, hq, heq⟩ := Request.perform_remove (t := t) hc hp hplan
    rw [heq]
    exact ⟨_, _, q, hq, .removed (Removal.serves_of_plan hplan), rfl⟩

theorem Request.perform_openFile_refused {path : String} {cause : Refusal} (draws : List Int32)
    (hfound : found m path = .error cause) : ∃ q, FaultPlan.Faultless q ∧
      (Request.openFile path draws).perform ⟨⟨m, count, p⟩, Volume.on m, t⟩
        = (.failed (.refused cause), ⟨⟨m, count, q⟩, Volume.on m, t⟩) := by
  have hopen :=
    FileSystem.openFile_eq (v := Volume.on m) (d := ⟨m, count, p⟩) (t := t) path draws
  have hanswers := hc.answers_openPath path
  rw [hfound] at hanswers
  obtain ⟨q, hq, hact⟩ := hanswers.eval hp hc.covered
  rw [bind_apply, FileSystem.lift_answer hact] at hopen
  exact ⟨q, hq, Request.respond_error hopen⟩

theorem Request.perform_openFile {path : String} {e : Entry} (draws : List Int32)
    (hfound : found m path = .ok e) : ∃ q, FaultPlan.Faultless q ∧
      (Request.openFile path draws).perform ⟨⟨m, count, p⟩, Volume.on m, t⟩
        = (.opened (t.pick? draws), ⟨⟨m, count, q⟩, Volume.on m,
            (t.pick? draws).elim t fun id => t.insert id (opened m e.sector)⟩) := by
  have hopen :=
    FileSystem.openFile_eq (v := Volume.on m) (d := ⟨m, count, p⟩) (t := t) path draws
  have hanswers := hc.answers_openPath path
  rw [hfound] at hanswers
  obtain ⟨q, hq, hact⟩ := hanswers.eval hp hc.covered
  rw [bind_apply, FileSystem.lift_answer hact] at hopen
  refine ⟨q, hq, Request.respond_ok (hopen.trans ((FileSystem.getTable_bind _).trans ?_))⟩
  cases t.pick? draws with
  | none => rfl
  | some id => rfl

theorem hasOutcome_openFile (path : String) (draws : List Int32) :
    HasOutcome m count t (.openFile path draws)
      ((Request.openFile path draws).perform ⟨⟨m, count, p⟩, Volume.on m, t⟩) := by
  cases hfound : found m path with
  | error cause =>
    obtain ⟨q, hq, heq⟩ := Request.perform_openFile_refused (t := t) hc hp draws hfound
    rw [heq]
    exact ⟨m, t, q, hq, .failed (by simp), rfl⟩
  | ok e =>
    obtain ⟨d, name, hleads, hfind⟩ := found_eq_ok.mp hfound
    obtain ⟨q, hq, heq⟩ := Request.perform_openFile (t := t) hc hp draws hfound
    rw [heq]
    cases hpick : t.pick? draws with
    | none => exact ⟨m, t, q, hq, .openedNone, rfl⟩
    | some id => exact ⟨m, _, q, hq, .opened hleads hfind hpick, rfl⟩

omit hc in
theorem hasOutcome_close (id : Int32) : HasOutcome m count t (.close id)
    ((Request.close id).perform ⟨⟨m, count, p⟩, Volume.on m, t⟩) := by
  cases hfind : t.find? id with
  | none =>
    rw [Request.perform, Request.respond_error (FileSystem.close_eq_unknown hfind)]
    exact ⟨m, t, p, hp, .failed (by simp), rfl⟩
  | some f =>
    rw [Request.perform, Request.respond_ok (FileSystem.close_eq hfind)]
    exact ⟨m, _, p, hp, .closed hfind, rfl⟩

section

variable {id : Int32} {f : OpenFile} (hfind : t.find? id = some f) (hf : f.Current m)
  {buffer data : Array UInt8}
include hfind hf

theorem Request.perform_read (hin : f.InRange f.position buffer.size) :
    ∃ q, FaultPlan.Faultless q ∧ (Request.read id buffer).perform ⟨⟨m, count, p⟩, Volume.on m, t⟩
      = (.read (min (f.position + buffer.size) f.length - f.position) (Bytes.overlay buffer 0
          ((f.header.contents m).extract f.position (f.position + buffer.size))),
        ⟨⟨m, count, q⟩, Volume.on m, t.replace id
          (f.seek (f.position + (min (f.position + buffer.size) f.length - f.position)))⟩) := by
  have hread := FileSystem.read_eq (v := Volume.on m) (d := ⟨m, count, p⟩) hfind buffer
  obtain ⟨sectors, hsub, h⟩ := hf.follows_read_inRange hc hin
  obtain ⟨q, hq, hact⟩ :=
    Answers.eval ⟨sectors, fun s hs => hf.sectors_lt hc (hsub hs), h⟩ hp hc.covered
  rw [bind_apply, FileSystem.lift_answer hact] at hread
  exact ⟨q, hq, Request.respond_ok hread⟩

theorem Request.perform_read_overlong (hout : ¬ f.InRange f.position buffer.size) :
    ∃ q, FaultPlan.Faultless q ∧ (Request.read id buffer).perform ⟨⟨m, count, p⟩, Volume.on m, t⟩
      = (.failed (.broken .arithmetic), ⟨⟨m, count, q⟩, Volume.on m, t⟩) := by
  have hread := FileSystem.read_eq (v := Volume.on m) (d := ⟨m, count, p⟩) hfind buffer
  obtain ⟨q, hq, hact⟩ := (Answers.of_nil (hf.follows_read_overlong hc hout)).eval hp hc.covered
  rw [bind_apply, FileSystem.lift_answer hact] at hread
  exact ⟨q, hq, Request.respond_error hread⟩

theorem Request.perform_write (hin : f.InRange f.position data.size) :
    ∃ q, FaultPlan.Faultless q ∧ (Request.write id data).perform ⟨⟨m, count, p⟩, Volume.on m, t⟩
      = (.written (min (f.position + data.size) f.length - f.position),
        ⟨⟨(f.header.writeScript m f.position data).medium m, count, q⟩, Volume.on m, t.replace id
          (f.seek (f.position + (min (f.position + data.size) f.length - f.position)))⟩) := by
  have hwrite := FileSystem.write_eq (v := Volume.on m) (d := ⟨m, count, p⟩) hfind data
  obtain ⟨q, hq, hact⟩ := (Commits.of_follows (hf.follows_write_inRange hc hin)).eval hp
    (hf.within_writeScript hc data) hc.covered
  rw [bind_apply, FileSystem.lift_answer hact] at hwrite
  exact ⟨q, hq, Request.respond_ok hwrite⟩

theorem Request.perform_write_overlong (hout : ¬ f.InRange f.position data.size) :
    ∃ q, FaultPlan.Faultless q ∧ (Request.write id data).perform ⟨⟨m, count, p⟩, Volume.on m, t⟩
      = (.failed (.broken .arithmetic), ⟨⟨m, count, q⟩, Volume.on m, t⟩) := by
  have hwrite := FileSystem.write_eq (v := Volume.on m) (d := ⟨m, count, p⟩) hfind data
  obtain ⟨q, hq, hact⟩ :=
    (Answers.of_nil (hf.follows_write_overlong hc hout).2).eval hp hc.covered
  rw [bind_apply, FileSystem.lift_answer hact] at hwrite
  exact ⟨q, hq, Request.respond_error hwrite⟩

end

/-- A file that is read gives what it holds, as far as there are so many addresses. -/
theorem hasOutcome_read {id : Int32} (ht : ∀ f, t.find? id = some f → f.Current m)
    (buffer : Array UInt8) : HasOutcome m count t (.read id buffer)
      ((Request.read id buffer).perform ⟨⟨m, count, p⟩, Volume.on m, t⟩) := by
  cases hfind : t.find? id with
  | none =>
    rw [Request.perform, Request.respond_ok (FileSystem.read_eq_unknown hfind buffer)]
    exact ⟨m, t, p, hp, .readUnknown hfind, rfl⟩
  | some f =>
    have hf := ht f hfind
    by_cases hin : f.InRange f.position buffer.size
    · obtain ⟨q, hq, heq⟩ := Request.perform_read hc hp hfind hf hin
      rw [heq]
      exact ⟨m, _, q, hq, .read hfind rfl, rfl⟩
    · obtain ⟨q, hq, heq⟩ := Request.perform_read_overlong hc hp hfind hf hin
      rw [heq]
      exact ⟨m, t, q, hq, .overlong (hf.follows_readAt_overlong hc hin).1 ⟨id, Or.inl rfl⟩, rfl⟩

theorem hasOutcome_write {id : Int32} (ht : ∀ f, t.find? id = some f → f.Current m)
    (data : Array UInt8) : HasOutcome m count t (.write id data)
      ((Request.write id data).perform ⟨⟨m, count, p⟩, Volume.on m, t⟩) := by
  cases hfind : t.find? id with
  | none =>
    rw [Request.perform, Request.respond_ok (FileSystem.write_eq_unknown hfind data)]
    exact ⟨m, t, p, hp, .writtenUnknown hfind, rfl⟩
  | some f =>
    have hf := ht f hfind
    by_cases hin : f.InRange f.position data.size
    · obtain ⟨q, hq, heq⟩ := Request.perform_write hc hp hfind hf hin
      rw [heq]
      exact ⟨_, _, q, hq, .written hfind rfl, rfl⟩
    · obtain ⟨q, hq, heq⟩ := Request.perform_write_overlong hc hp hfind hf hin
      rw [heq]
      exact ⟨m, t, q, hq, .overlong (hf.follows_write_overlong hc hin).1 ⟨id, Or.inr rfl⟩, rfl⟩

omit hc in
theorem FileSystem.unmount_eq {v : Volume} : FileSystem.unmount ⟨⟨m, count, p⟩, v, t⟩
    = .ok ⟨m, count, p⟩ := by
  simp only [FileSystem.unmount, Volume.unmount, liftM, monadLift, MonadLift.monadLift, Disk.sync,
    hp.sync]
  rfl

theorem FileSystem.mount_eq : ∃ q, FaultPlan.Faultless q ∧
    FileSystem.mount ⟨m, count, p⟩ = .ok ⟨⟨m, count, q⟩, Volume.on m, {}⟩ := by
  obtain ⟨q, hq, hmount⟩ := (Volume.answers_mount hc).eval hp hc.covered
  refine ⟨q, hq, ?_⟩
  rw [FileSystem.mount, hmount]
  rfl

theorem Request.perform_remount : ∃ q, FaultPlan.Faultless q ∧
    Request.remount.perform ⟨⟨m, count, p⟩, Volume.on m, t⟩
      = (.done, ⟨⟨m, count, q⟩, Volume.on m, {}⟩) := by
  obtain ⟨q, hq, hmount⟩ := FileSystem.mount_eq hc hp
  refine ⟨q, hq, ?_⟩
  rw [Request.perform, Request.performRemount, FileSystem.unmount_eq hp]
  dsimp only
  rw [hmount]

theorem hasOutcome_remount : HasOutcome m count t .remount
    (Request.remount.perform ⟨⟨m, count, p⟩, Volume.on m, t⟩) := by
  obtain ⟨q, hq, heq⟩ := Request.perform_remount (t := t) hc hp
  rw [heq]
  exact ⟨m, {}, q, hq, .remounted, rfl⟩

end

/-- Every request to a healthy file system has an outcome. -/
theorem FileSystem.Healthy.hasOutcome {fs : FileSystem} (h : fs.Healthy) (r : Request) :
    HasOutcome fs.disk.medium fs.disk.count fs.opened r (r.perform fs) := by
  obtain ⟨⟨m, count, p⟩, v, t⟩ := fs
  obtain ⟨⟨hc, -, hcurrent⟩, hp, hv⟩ := h
  dsimp only at hc hp hv hcurrent ⊢
  subst hv
  cases r with
  | create path size =>
    exact hasOutcome_create hc hp (Volume.performs_create hc path size)
      (fun c => Creation.serves_of_planFile hc) (by simp) (fun c hc => .created hc)
      (FileSystem.getVolume_bind (·.create path size))
  | createDirectory path =>
    exact hasOutcome_create hc hp (Volume.performs_createDirectory hc path)
      (fun c => Creation.serves_of_planDirectory hc) (by simp) (fun c hc => .createdDirectory hc)
      (FileSystem.getVolume_bind (·.createDirectory path))
  | remove path => exact hasOutcome_remove hc hp path
  | openFile path draws => exact hasOutcome_openFile hc hp path draws
  | close id => exact hasOutcome_close hp id
  | read id buffer => exact hasOutcome_read hc hp (hcurrent id) buffer
  | write id data => exact hasOutcome_write hc hp (hcurrent id) data
  | list path =>
    rw [Request.perform]
    exact hasOutcome_reads hp (Volume.readsOnly_list (Volume.on m) path) rfl
      (FileSystem.getVolume_bind (·.list path))
  | listTree path =>
    rw [Request.perform]
    exact hasOutcome_reads hp (Volume.readsOnly_listTree (Volume.on m) path) rfl
      (FileSystem.getVolume_bind (·.listTree path))
  | freeSectors =>
    rw [Request.perform]
    exact hasOutcome_reads hp (Volume.readsOnly_freeSectors (Volume.on m)) rfl
      (FileSystem.getVolume_bind Volume.freeSectors)
  | remount => exact hasOutcome_remount hc hp

/-! ## What a run keeps -/

namespace Tree

variable {m m' : Medium} {count : Nat}

theorem Consistent.not_reached_of_regular (hc : Consistent m count) {s : Nat} (h : Regular m s) :
    ¬ Reached m s := by
  intro hs
  obtain ⟨d, i, e, hd, hi, hfile, hsector⟩ := h
  have hentry : Names m (.entry d i) s := hsector ▸ Names.entry hd hi
  cases hs with
  | root => cases hc.names_injective hentry .root
  | child hd' hi' hdir =>
    cases hc.names_injective hentry (.entry hd' hi')
    rw [hi] at hi'
    cases hi'
    exact hfile hdir

theorem Consistent.sameTree_write (hc : Consistent m count) {s : Nat} (h : Regular m s)
    (position : Nat) (data : Array UInt8) :
    SameTree m (((Header.stored m s).writeScript m position data).medium m) := by
  have hnot := hc.not_reached_of_regular h
  obtain ⟨d, i, e, hd, hi, -, rfl⟩ := h
  have hs : Names m (.entry d i) (Word.wide e.sector) := .entry hd hi
  refine ⟨hc.framed_write hs position data, fun j hj => ?_, fun d' hd' j hj => ?_⟩
  · exact hc.get_write hs (hc.data_disjoint .map hs nofun hj) position data
  · obtain ⟨o, -, ho⟩ := exists_names hd'
    refine hc.get_write hs (hc.data_disjoint ho hs ?_ hj) position data
    rintro rfl
    exact hnot (names_functional hs ho ▸ hd')

end Tree

theorem Tree.Framed.on_eq {m m' : Medium} (h : Framed m m') : Volume.on m' = Volume.on m := by
  rw [Volume.on, Volume.on, opened, opened, opened, opened, h.stored_eq .map, h.stored_eq .root]

namespace OpenFile.Current

variable {m m' : Medium} {f : OpenFile} (hf : f.Current m)
include hf

theorem congr (hframed : Framed m m')
    (hnames : ∀ d i, Names m (.entry d i) (Word.wide f.sector) →
      Names m' (.entry d i) (Word.wide f.sector)) : f.Current m' where
  header_eq := by
    obtain ⟨d, i, hs⟩ := hf.named
    rw [hframed.stored_eq hs, hf.header_eq]
  position_le := hf.position_le
  named := by
    obtain ⟨d, i, hs⟩ := hf.named
    exact ⟨d, i, hnames d i hs⟩

theorem seek {k : Nat} (hk : k ≤ f.length - f.position) : (f.seek (f.position + k)).Current m where
  header_eq := hf.header_eq
  position_le := by
    have := hf.position_le
    change f.position + k ≤ f.length
    omega
  named := hf.named

end OpenFile.Current

section

variable {m m' : Medium} {count : Nat} {t t' : OpenTable} {r : Request} {response : Response}

theorem Sound.created (hs : Sound m count t) {c : Creation} (hv : c.Valid m count) :
    Sound (c.after m count) count t ∧ Volume.on (c.after m count) = Volume.on m := by
  obtain ⟨hc, hdistinct, hcurrent⟩ := hs
  have hframed := Creation.framed_after hc hv
  exact ⟨⟨Creation.consistent_after hc hv, hdistinct, fun id f hf => (hcurrent id f hf).congr
    hframed fun _ _ h => (Creation.names_after hc hv).mpr (Or.inl h)⟩, hframed.on_eq⟩

theorem Sound.removed (hs : Sound m count t) {r : Removal} (hv : r.Valid m) :
    Sound (r.after m count) count (t.eraseSector r.entry.sector) ∧
      Volume.on (r.after m count) = Volume.on m := by
  obtain ⟨hc, hdistinct, hcurrent⟩ := hs
  have hframed := Removal.framed_after hc hv
  refine ⟨⟨Removal.consistent_after hc hv, OpenTable.distinct_eraseSector hdistinct _,
    fun id f hf => ?_⟩, hframed.on_eq⟩
  rw [OpenTable.find?_eraseSector hdistinct, Option.filter_eq_some_iff] at hf
  obtain ⟨hf, hsector⟩ := hf
  exact (hcurrent id f hf).congr hframed fun d i h =>
    Removal.names_after_of_ne hc hv (by simpa using hsector) h

/-- Whatever a request does, the tree stays well formed and the open files stay current. -/
theorem Outcome.sound (ho : Outcome m count t r response m' t') (hs : Sound m count t)
    (hr : r.Admissible m t) : Sound m' count t' ∧ Volume.on m' = Volume.on m := by
  have ⟨hc, hdistinct, hcurrent⟩ := hs
  cases ho with
  | failed | overlong | openedNone | readUnknown | writtenUnknown | listed => exact ⟨hs, rfl⟩
  | created hserves => exact hs.created hserves.valid
  | createdDirectory hserves => exact hs.created hserves.valid
  | removed hserves => exact hs.removed hserves.valid
  | @opened _ _ id p _ e hleads hfind hid =>
    refine ⟨⟨hc, OpenTable.distinct_insert hdistinct (OpenTable.find?_of_pick? hid),
      fun j f hf => ?_⟩, rfl⟩
    rw [OpenTable.find?_insert] at hf
    split at hf
    · cases hf
      obtain ⟨i, hi, -⟩ := exists_slot hfind
      exact ⟨rfl, Nat.zero_le _, _, i, .entry hleads.reached hi⟩
    · exact hcurrent j f hf
  | closed =>
    refine ⟨⟨hc, OpenTable.distinct_erase hdistinct, fun j f hf => ?_⟩, rfl⟩
    rw [OpenTable.find?_erase] at hf
    split at hf
    · cases hf
    · exact hcurrent j f hf
  | @read id buffer f k hfind hk =>
    refine ⟨⟨hc, OpenTable.distinct_replace hdistinct, fun j g hg => ?_⟩, rfl⟩
    rw [OpenTable.find?_replace] at hg
    split at hg
    · rw [hfind] at hg
      cases hg
      exact (hcurrent id f hfind).seek (by omega)
    · exact hcurrent j g hg
  | @written id data f k hfind hk =>
    have hf := hcurrent id f hfind
    have hsame := hc.sameTree_write (hr f hfind) f.position data
    rw [← hf.header_eq] at hsame
    have hsize := Script.size_medium (hf.within_writeScript hc data) hc.covered
    have hkeep {g : OpenFile} (hg : g.Current m) :
        g.Current ((f.header.writeScript m f.position data).medium m) :=
      hg.congr hsame.framed fun _ _ h => (hsame.names_iff hc).mpr h
    refine ⟨⟨hsame.consistent hc hsize, OpenTable.distinct_replace hdistinct, fun j g hg => ?_⟩,
      hsame.framed.on_eq⟩
    rw [OpenTable.find?_replace] at hg
    split at hg
    · rw [hfind] at hg
      cases hg
      exact hkeep (hf.seek (by omega))
    · exact hkeep (hcurrent j g hg)
  | remounted => exact ⟨⟨hc, List.nodup_nil, nofun⟩, rfl⟩

end

theorem FileSystem.format_eq {m : Medium} {count : Nat} {p : FaultPlan} (hp : p.Faultless)
    (hm : sectorSize * count ≤ m.size) (hv : Formatting.Valid count) :
    ∃ q : FaultPlan, q.Faultless ∧ FileSystem.format ⟨m, count, p⟩
      = .ok ⟨⟨Formatting.after m count, count, q⟩, Volume.on (Formatting.after m count), {}⟩ := by
  obtain ⟨q, hq, hact⟩ := Formatting.yields_format hv hm p hp
  refine ⟨q, hq, ?_⟩
  rw [FileSystem.format, hact]
  rfl

theorem FileSystem.format_error {disk : Disk} (hfaults : disk.faults.Faultless)
    (hmedium : sectorSize * disk.count ≤ disk.medium.size)
    (hv : ¬ Formatting.Valid disk.count) :
    ∃ disk', FileSystem.format disk = .error (Formatting.cause disk.count, disk') := by
  obtain ⟨m', h⟩ := Formatting.yields_error hmedium hv
  obtain ⟨q, -, hact⟩ := h disk.faults hfaults
  refine ⟨⟨m', disk.count, q⟩, ?_⟩
  rw [FileSystem.format, hact]
  rfl

theorem FileSystem.eq_of_format {disk : Disk} {fs : FileSystem} (hfaults : disk.faults.Faultless)
    (hmedium : sectorSize * disk.count ≤ disk.medium.size)
    (hformat : FileSystem.format disk = .ok fs) :
    Formatting.Valid disk.count ∧ ∃ q, FaultPlan.Faultless q ∧
      fs = ⟨⟨Formatting.after disk.medium disk.count, disk.count, q⟩,
        Volume.on (Formatting.after disk.medium disk.count), {}⟩ := by
  obtain ⟨m, count, p⟩ := disk
  by_cases hv : Formatting.Valid count
  · obtain ⟨q, hq, heq⟩ := format_eq hfaults hmedium hv
    rw [heq] at hformat
    exact ⟨hv, q, hq, (Except.ok.inj hformat).symm⟩
  · obtain ⟨disk', h⟩ := format_error hfaults hmedium hv
    rw [h] at hformat
    cases hformat

namespace FileSystem.Healthy

variable {fs : FileSystem}

theorem count_eq (h : fs.Healthy) (r : Request) : (r.perform fs).2.disk.count = fs.disk.count := by
  obtain ⟨m', t', q, -, -, hresult⟩ := h.hasOutcome r
  rw [hresult]

theorem step (h : fs.Healthy) (r : Request) (hr : r.Admissible fs.disk.medium fs.opened) :
    (r.perform fs).2.Healthy := by
  obtain ⟨m', t', q, hq, ho, hresult⟩ := h.hasOutcome r
  obtain ⟨hs, hvolume⟩ := ho.sound h.sound hr
  rw [hresult]
  exact ⟨hs, hq, hvolume.symm⟩

theorem of_sound {m : Medium} {count : Nat} {q : FaultPlan} {t : OpenTable} (hs : Sound m count t)
    (hq : q.Faultless) : Healthy ⟨⟨m, count, q⟩, Volume.on m, t⟩ := ⟨hs, hq, rfl⟩

theorem of_format {disk : Disk} (hfaults : disk.faults.Faultless)
    (hmedium : sectorSize * disk.count ≤ disk.medium.size)
    (hformat : FileSystem.format disk = .ok fs) : fs.Healthy := by
  obtain ⟨hv, q, hq, rfl⟩ := eq_of_format hfaults hmedium hformat
  exact of_sound ⟨Formatting.consistent_after hv hmedium, List.nodup_nil, nofun⟩ hq

end FileSystem.Healthy

theorem Creation.plan_of_table_eq_empty {m : Medium} {count size sector : Nat} {path name : String}
    {kind : EntryKind} {parents : List String} {parent : Int32} {rest : List Nat}
    (hsplit : Path.splitLast path = .ok (parents, name))
    (hwalk : walk (table m) rootSector [] parents = .ok parent)
    (htable : table m (Word.wide parent) = Directory.empty directorySlots)
    (hfree : (bitmap m count).free = sector :: rest)
    (hlength : ¬ maxNameLength < name.utf8ByteSize) (hname : Directory.isBadName name = false) :
    Creation.plan m count path size kind =
      if maxFileSize < size then .error (.fileTooLarge size)
      else if rest.length < sectorsFor size + indexBlocksFor (sectorsFor size) then .error .noSpace
      else .ok { parent, slot := 0, name, kind, size, sector, rest } := by
  have hnone : (Directory.empty directorySlots).find? name = none := by
    simp [Directory.find?, Directory.empty, Directory.holds, Entry.inUse, Entry.blank]
  have hidx : (Directory.empty directorySlots).findIdx? name = none := by
    simp [Directory.findIdx?, Directory.empty, Directory.holds, Entry.inUse, Entry.blank]
  have hslot : (Directory.empty directorySlots).slots.findIdx? (! ·.inUse) = some 0 := by
    simp [Directory.empty, Entry.inUse, Entry.blank]
  have hadd : (Directory.empty directorySlots).add name (Word.ofNat sector) kind
      = .ok ⟨(Directory.empty directorySlots).slots.setIfInBounds 0
        (.named name (Word.ofNat sector) kind)⟩ := by
    rw [Directory.add, if_neg hlength, hname, if_neg Bool.false_ne_true, hidx, hslot]
    rfl
  rw [Creation.plan, hsplit]
  dsimp only
  rw [hwalk]
  dsimp only
  rw [htable, hnone, hfree]
  dsimp only
  rw [hadd, hslot]
  rfl

theorem Formatting.plan_sixteen_eq (m : Medium) (size : Nat) (kind : EntryKind)
    {path : String} (name : String) (hsplit : Path.splitLast path = .ok ([], name))
    (hlength : ¬ maxNameLength < name.utf8ByteSize) (hname : Directory.isBadName name = false) :
    Creation.plan (after m 16) 16 path size kind =
      if maxFileSize < size then .error (.fileTooLarge size)
      else if 9 < sectorsFor size + indexBlocksFor (sectorsFor size) then .error .noSpace
      else .ok
        { parent := rootSector, slot := 0, name, kind, size, sector := 6,
          rest := List.range' 7 9 } := by
  have hfree : (bitmap (after m 16) 16).free = 6 :: List.range' 7 9 := by
    rw [bitmap_after valid_sixteen]
    decide
  exact Creation.plan_of_table_eq_empty hsplit (by rw [walk]) (table_after valid_sixteen) hfree
    hlength hname

theorem Formatting.plan_sixteen (m : Medium) {size : Nat} (hsize : size ≤ 1152) :
    Creation.plan (after m 16) 16 "/a" size .file = .ok
      { parent := rootSector, slot := 0, name := "a", kind := .file, size, sector := 6,
        rest := List.range' 7 9 } := by
  have hsectors : sectorsFor size ≤ 9 := by
    simp only [sectorsFor, sectorSize]
    omega
  have hindex : indexBlocksFor (sectorsFor size) = 0 :=
    if_pos (Nat.le_trans hsectors (by decide))
  have hmax : ¬ maxFileSize < size := by
    simp only [maxFileSize, maxFileSectors, sectorSize, directPointers, blockPointers]
    omega
  rw [plan_sixteen_eq m size .file "a" (by decide) (by decide) (by decide), if_neg hmax,
    hindex, Nat.add_zero, if_neg (Nat.not_lt.mpr hsectors)]

theorem Formatting.planDirectory_sixteen (m : Medium) :
    Creation.planDirectory (after m 16) 16 "/d" = .ok
      { parent := rootSector, slot := 0, name := "d", kind := .directory, size := directoryFileSize,
        sector := 6, rest := List.range' 7 9 } := by
  rw [Creation.planDirectory, if_pos (by decide),
    plan_sixteen_eq m directoryFileSize .directory "d" (by decide) (by decide)
      (by decide), if_neg (by decide), if_neg (by decide)]

theorem FileSystem.exists_format_sixteen : ∃ m p q, FaultPlan.Faultless p ∧
    sectorSize * 16 ≤ Medium.size m ∧ FaultPlan.Faultless q ∧ FileSystem.format ⟨m, 16, p⟩
      = .ok ⟨⟨Formatting.after m 16, 16, q⟩, Volume.on (Formatting.after m 16), {}⟩ := by
  have hsize : sectorSize * 16 ≤ (Medium.replicate (sectorSize * 16) 0).size :=
    Nat.le_of_eq (Medium.size_replicate ..).symm
  obtain ⟨q, hq, hformat⟩ := FileSystem.format_eq FaultPlan.faultless_default hsize
    Formatting.valid_sixteen
  exact ⟨_, {}, q, FaultPlan.faultless_default, hsize, hq, hformat⟩

theorem exists_reachable_sixteen : ∃ m q, FaultPlan.Faultless q ∧
    Consistent (Formatting.after m 16) 16 ∧
    Reachable ⟨⟨Formatting.after m 16, 16, q⟩, Volume.on (Formatting.after m 16), {}⟩ := by
  obtain ⟨m, p, q, hp, hsize, hq, hformat⟩ := FileSystem.exists_format_sixteen
  exact ⟨m, q, hq, Formatting.consistent_after Formatting.valid_sixteen hsize,
    .format hp hsize hformat⟩

theorem Reachable.healthy {fs : FileSystem} (h : Reachable fs) : fs.Healthy := by
  induction h with
  | format hfaults hmedium hformat => exact .of_format hfaults hmedium hformat
  | perform _ r hr ih => exact ih.step r hr

/-! ## Requests in a row -/

namespace FileSystem

/-- The file system once requests have been made one after another. -/
def run (fs : FileSystem) : List Request → FileSystem
  | [] => fs
  | r :: rest => (r.perform fs).2.run rest

/-- Each of the requests can be made once those before it have been. -/
def Admits (fs : FileSystem) : List Request → Prop
  | [] => True
  | r :: rest => r.Admissible fs.disk.medium fs.opened ∧ (r.perform fs).2.Admits rest

end FileSystem

theorem Reachable.run {fs : FileSystem} (h : Reachable fs) {rs : List Request}
    (hrs : fs.Admits rs) : Reachable (fs.run rs) := by
  induction rs generalizing fs with
  | nil => exact h
  | cons r rest ih => exact ih (h.perform r hrs.1) hrs.2

/-! ## Trees without directories -/

/-- All entries name regular files. -/
def Tree.Flat (m : Medium) : Prop :=
  ∀ d i e, Reached m d → slot? m d i = some e → ¬ e.isDirectory = true

theorem Outcome.flat {m m' : Medium} {count : Nat} {t t' : OpenTable} {r : Request}
    {response : Response} (ho : Outcome m count t r response m' t') (hs : Sound m count t)
    (hr : r.Admissible m t) (hdir : ∀ path, r ≠ .createDirectory path) (hflat : Flat m) :
    Flat m' := by
  have hc := hs.consistent
  intro d i e hd hi
  cases ho with
  | failed | overlong | openedNone | opened | closed | readUnknown | read | writtenUnknown | listed
    | remounted => exact hflat d i e hd hi
  | createdDirectory => exact absurd rfl (hdir _)
  | created hserves =>
    have hv := hserves.valid
    have hfile : ¬ (EntryKind.file = .directory) := nofun
    rw [Creation.reached_after hc hv, hserves.kind_eq] at hd
    have hd := hd.resolve_right fun h => hfile h.1
    rw [Creation.slot?_after hc hv d hd] at hi
    split at hi
    · obtain rfl := Option.some.inj hi
      rwa [Creation.entry, Entry.isDirectory_named, hserves.kind_eq]
    · exact hflat d i e hd hi
  | removed hserves =>
    have hv := hserves.valid
    obtain ⟨hd, -⟩ := (Removal.reached_after hc hv).mp hd
    rw [Removal.slot?_after hc hv d hd] at hi
    split at hi
    · cases hi
    · exact hflat d i e hd hi
  | @written id data f k hfind hk =>
    have hsame := hc.sameTree_write (hr f hfind) f.position data
    rw [← (hs.current id f hfind).header_eq] at hsame
    have hd := (hsame.reached_iff hc).mp hd
    exact hflat d i e hd (hsame.slot?_eq hc d hd i ▸ hi)

theorem FileSystem.Healthy.admits_of_flat {fs : FileSystem} (h : fs.Healthy)
    (hflat : Flat fs.disk.medium) (rs : List Request)
    (hrs : ∀ r ∈ rs, ∀ path, r ≠ .createDirectory path) : fs.Admits rs := by
  induction rs generalizing fs with
  | nil => trivial
  | cons r rest ih =>
    have hr : r.Admissible fs.disk.medium fs.opened := by
      cases r with
      | write id data =>
        intro f hf
        obtain ⟨d, i, hnames⟩ := (h.sound.current id f hf).named
        obtain ⟨e, hd, hi, heq⟩ := names_entry_iff.mp hnames
        exact ⟨d, i, e, hd, hi, hflat d i e hd hi, heq⟩
      | _ => trivial
    obtain ⟨m', t', q, -, ho, hresult⟩ := h.hasOutcome r
    refine ⟨hr, ih (h.step r hr) ?_ fun r hr => hrs r (List.mem_cons_of_mem _ hr)⟩
    rw [hresult]
    exact ho.flat h.sound hr (hrs r (List.mem_cons_self ..)) hflat

theorem Formatting.flat_after {m : Medium} {count : Nat} (hv : Valid count) :
    Flat (after m count) := by
  intro d i e hd hi
  rw [(reached_after hv).mp hd, slot?_after hv] at hi
  cases hi

end IndexedDisk
