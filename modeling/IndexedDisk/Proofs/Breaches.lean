import IndexedDisk.Proofs.Making

/-!
# Breaches

A request breaks off when it finds the map in disagreement with a header, or a number out of all
bounds. In a run no request does (`never_broken`). That needs writes to go to regular files: an id
can be open on a directory too, and what is written there is taken for entries.

* `Healthy.ne_broken`: a request to a healthy file system has an answer, whatever it is.
* `Directory.Forged`: a directory with an entry that names the directory's own first sector for a
  header. To remove that entry breaks off (`broken_of_forged`).
-/

open IndexedDisk.Tree IndexedDisk.OpenFile

namespace IndexedDisk

seal Tree.table

/-- The bytes of a request can be held. -/
def Request.Bounded : Request → Prop
  | read _ buffer => buffer.size ≤ maxRoom
  | write _ data => data.size ≤ maxRoom
  | _ => True

namespace FileSystem.Healthy

variable {fs : FileSystem} (h : fs.Healthy)
include h

theorem listTree_ne_broken (path : String) (b : Breach) :
    ((Request.listTree path).perform fs).1 ≠ .failed (.broken b) := by
  rw [h.perform_listTree]
  cases hlisted : listed fs.disk.medium path with
  | error cause =>
    rw [listedTree, hlisted]
    rintro ⟨⟩
  | ok entries =>
    obtain ⟨d, hd, rfl⟩ := exists_of_listed hlisted
    obtain ⟨l, hl⟩ := Line.exists_of_reached hd
    have hfuel : fs.disk.count < fs.disk.count + 1 + (d :: l).length := by omega
    obtain ⟨found, hfound⟩ := h.sound.consistent.exists_below 0 hl hfuel
      exists_slot_of_mem
    rw [listedTree, hlisted]
    dsimp only
    rw [hfound]
    rintro ⟨⟩

theorem transfer_ne_broken {r : Request} (htransfer : r matches .read .. | .write ..)
    (hr : r.Bounded) (b : Breach) : (r.perform fs).1 ≠ .failed (.broken b) := by
  obtain ⟨m', t', q, -, ho, -⟩ := h.hasOutcome r
  intro hbroken
  rw [hbroken] at ho
  cases ho with
  | failed hother => cases r <;> simp at htransfer hother
  | overlong hbytes hwhich =>
    rcases hwhich with ⟨id, rfl | rfl⟩
    · exact absurd hr (Nat.not_le.mpr hbytes)
    · exact absurd hr (Nat.not_le.mpr hbytes)
  | listed hother => cases r <;> simp at htransfer hother

theorem ne_broken {r : Request} (hr : r.Bounded) (b : Breach) :
    (r.perform fs).1 ≠ .failed (.broken b) := by
  obtain ⟨⟨m, count, p⟩, v, t⟩ := fs
  have hc := h.sound.consistent
  have hp := h.faultless
  obtain rfl : v = Volume.on m := h.volume_eq
  cases r with
  | create path size =>
    cases hplan : Creation.plan m count path size .file with
    | error cause =>
      obtain ⟨q, -, heq⟩ := Request.perform_create_refused (t := t) hc hp hplan
      rw [heq]
      rintro ⟨⟩
    | ok c =>
      obtain ⟨q, -, heq⟩ := Request.perform_create (t := t) hc hp hplan
      rw [heq]
      rintro ⟨⟩
  | createDirectory path =>
    cases hplan : Creation.planDirectory m count path with
    | error cause =>
      obtain ⟨q, -, heq⟩ := Request.perform_createDirectory_refused (t := t) hc hp hplan
      rw [heq]
      rintro ⟨⟩
    | ok c =>
      obtain ⟨q, -, heq⟩ := Request.perform_createDirectory (t := t) hc hp hplan
      rw [heq]
      rintro ⟨⟩
  | remove path =>
    cases hplan : Removal.plan m path with
    | error cause =>
      obtain ⟨q, -, heq⟩ := Request.perform_remove_refused (t := t) hc hp hplan
      rw [heq]
      rintro ⟨⟩
    | ok r =>
      obtain ⟨q, -, heq⟩ := Request.perform_remove (t := t) hc hp hplan
      rw [heq]
      rintro ⟨⟩
  | openFile path draws =>
    cases hfound : found m path with
    | error cause =>
      obtain ⟨q, -, heq⟩ := Request.perform_openFile_refused (t := t) hc hp draws hfound
      rw [heq]
      rintro ⟨⟩
    | ok e =>
      obtain ⟨q, -, heq⟩ := Request.perform_openFile (t := t) hc hp draws hfound
      rw [heq]
      rintro ⟨⟩
  | close id =>
    cases hfind : t.find? id with
    | none =>
      rw [Request.perform, Request.respond_error (FileSystem.close_eq_unknown hfind)]
      rintro ⟨⟩
    | some f =>
      rw [Request.perform, Request.respond_ok (FileSystem.close_eq hfind)]
      rintro ⟨⟩
  | read id buffer => exact h.transfer_ne_broken rfl hr b
  | write id data => exact h.transfer_ne_broken rfl hr b
  | list path =>
    rw [h.perform_list]
    cases listed m path <;> rintro ⟨⟩
  | listTree path => exact h.listTree_ne_broken path b
  | freeSectors =>
    rw [h.perform_freeSectors]
    rintro ⟨⟩
  | remount =>
    obtain ⟨q, -, heq⟩ := Request.perform_remount (t := t) hc hp
    rw [heq]
    rintro ⟨⟩

end FileSystem.Healthy

/--
**No request of a run breaks off.** Whatever has been requested before and whatever is requested
next, the map agrees with the headers and all numbers stay in their bounds.
-/
theorem never_broken {fs : FileSystem} (h : Reachable fs) {r : Request} (hr : r.Bounded)
    (b : Breach) : (r.perform fs).1 ≠ .failed (.broken b) :=
  h.healthy.ne_broken hr b

/-- A run can come to a write to a file that is open. -/
theorem never_broken_write : ∃ fs, Reachable fs ∧ (Request.write 5 #[1, 2, 3]).Bounded ∧
    ∀ b, ((Request.write 5 #[1, 2, 3]).perform fs).1 ≠ .failed (.broken b) := by
  obtain ⟨fs, -, hfs, -, -⟩ := exists_reachable_open
  have hbounded : (Request.write 5 #[1, 2, 3]).Bounded := (by decide : 3 ≤ maxRoom)
  exact ⟨fs, hfs, hbounded, fun b => never_broken hfs hbounded b⟩

/-! ## Written directories -/

/--
An entry of the directory names sector `s` for a header, and what the directory itself holds first,
read as a header, has sector `q` for its first one.
-/
structure Directory.Forged (d : Directory) (name : String) (s q : Nat) : Prop where
  size_eq : d.size = directorySlots
  names : ∃ e, d.find? name = some e ∧ ¬ e.isDirectory = true ∧ Word.wide e.sector = s
  points : ∃ p ps, (Header.ofSector (Vector.ofFn fun i => d.image.getD i 0)).directSectors
    = p :: ps ∧ Word.wide p = q

section

variable {m : Medium} {count : Nat} {map : SectorMap} {h : Header}

theorem Header.follows_deallocate_outside {q : Int32} {ps : List Int32}
    (hdirect : h.directSectors = q :: ps) (hq : map.size ≤ Word.wide q) :
    Follows m count (Disk.runOn ⟨map, h⟩ deallocate) []
      (.error (.broken (.outsideMap (Word.wide q)))) := by
  have hrelease : map.release (Word.wide q) = .error (.outsideMap (Word.wide q)) :=
    if_neg (Nat.not_lt.mpr hq)
  have hgive : Follows m count (Disk.runOn ⟨map, h⟩ (giveBack q)) []
      (.error (.broken (.outsideMap (Word.wide q)))) := by
    intro p
    simp only [Disk.runOn, giveBack, hrelease]
    rfl
  unfold deallocate
  refine Follows.of_script (Follows.runOn_bind follows_current ?_) (List.nil_append _)
  rw [hdirect]
  exact Follows.runOn_bind_error (Follows.runOn_bind_error hgive)

theorem Tree.Consistent.answers_resolve_child (hc : Consistent m count) {m' : Medium}
    (hf : Framed m m') {name : String} {e : Entry}
    (hfind : (table m' (Word.wide rootSector)).find? name = some e) (hdir : e.isDirectory = true)
    (he : Reached m (Word.wide e.sector)) :
    Answers m' count ((Volume.on m').resolve [name])
      (.ok (opened m' e.sector, table m' (Word.wide e.sector))) := by
  refine (hc.answers_fetch_of_framed hf .root).bind ?_
  rw [Directory.descend_directory hfind hdir]
  exact (hc.answers_openAt_of_framed hf he).bind (Answers.pure _)

theorem Volume.answers_remove_outside {v : Volume} {path : String} {parents : List String}
    {name : String} {file : OpenFile} {d : Directory} {e : Entry} {map : SectorMap} {q : Int32}
    {ps : List Int32} (hsplit : Path.splitLast path = .ok (parents, name))
    (hresolve : Answers m count (v.resolve parents) (.ok (file, d)))
    (hmap : Answers m count v.fetchMap (.ok map)) (hfind : d.find? name = some e)
    (hfile : ¬ e.isDirectory = true) (he : Word.wide e.sector < count)
    (hdirect : (Header.stored m (Word.wide e.sector)).directSectors = q :: ps)
    (hq : map.size ≤ Word.wide q) :
    Answers m count (v.remove path) (.error (.broken (.outsideMap (Word.wide q)))) := by
  have hheader : Answers m count (Header.fetch e.sector)
      (.ok (Header.stored m (Word.wide e.sector))) := (Answers.readSector he).map
  have hfree : Answers m count (freeFile map (Header.stored m (Word.wide e.sector)) e.sector) _ :=
    (Answers.of_nil (Header.follows_deallocate_outside hdirect hq)).bind_error
  unfold remove
  rw [hsplit]
  refine (Answers.of_nil (Follows.of_ok_refusal rfl)).bind (hresolve.bind ?_)
  dsimp only
  rw [hfind]
  refine hheader.bind ?_
  rw [if_neg hfile]
  refine (Answers.pure true).bind ?_
  rw [if_pos rfl]
  exact hmap.bind hfree.bind_error

/--
An entry can be forged to name the sector that its own directory lies in. Its removal takes the
entries for a header, and breaks off if they point out of bounds.
-/
theorem Tree.Consistent.answers_remove_forged (hc : Consistent m count) {parent name : String}
    {e : Entry} (hentry : (table m (Word.wide rootSector)).find? parent = some e)
    (hdir : e.isDirectory = true) {path : String}
    (hsplit : Path.splitLast path = .ok ([parent], name)) {d : Directory} {q : Nat}
    (hforged : d.Forged name ((Header.stored m (Word.wide e.sector)).sectorAt m 0) q)
    (hq : count ≤ q) :
    Answers (((Header.stored m (Word.wide e.sector)).writeScript m 0 d.image).medium m) count
      ((Volume.on m).remove path) (.error (.broken (.outsideMap q))) := by
  obtain ⟨hsize, ⟨x, hfind, hfile, hx⟩, ⟨p, ps, hdirect, rfl⟩⟩ := hforged
  obtain ⟨i, hi, -⟩ := exists_slot hentry
  have he : Names m (.entry (Word.wide rootSector) i) (Word.wide e.sector) := .entry .root hi
  have hreached : Reached m (Word.wide e.sector) := .child .root hi hdir
  have hlength := hc.directory_length _ hreached
  have hintact := hc.intact _ _ he
  have hf := hc.framed_write he 0 d.image
  have hroot := hc.table_eq hf .root fun j hj =>
    hc.get_write he (hc.data_disjoint .root he nofun hj) 0 d.image
  have htable := hc.table_write he hreached hsize
  have hresolve := hc.answers_resolve_child hf (hroot ▸ hentry) hdir hreached
  rw [htable] at hresolve
  have hle : sectorSize ≤ (Header.stored m (Word.wide e.sector)).length := by
    rw [hlength]
    decide
  have hget := Header.get_writeScript_first d.image hintact (hc.separate he)
    (by rw [Directory.size_image, hsize]; decide) hle
  have hsectors := hintact.lt_sectors (Nat.lt_of_lt_of_le (by decide : 0 < sectorSize) hle)
  rw [Nat.zero_div] at hsectors
  have hlt : Word.wide x.sector < count := by
    rw [hx]
    exact hc.sectors_lt he (List.mem_append_left _ (hintact.sectorAt_mem hsectors))
  rw [← hget, ← hx] at hdirect
  rw [← hf.on_eq]
  exact Volume.answers_remove_outside hsplit hresolve (hc.answers_fetchMap_of_framed hf) hfind hfile
    hlt hdirect (by rwa [size_bitmap])

end

namespace FileSystem.Healthy

variable {fs : FileSystem} (h : fs.Healthy)
include h

theorem exists_write {id : Int32} {f : OpenFile} (hfind : fs.opened.find? id = some f)
    {data : Array UInt8} (hdata : data.size ≤ maxRoom) : ∃ t q, FaultPlan.Faultless q ∧
      ((Request.write id data).perform fs).2 = ⟨⟨(f.header.writeScript fs.disk.medium f.position
        data).medium fs.disk.medium, fs.disk.count, q⟩, Volume.on fs.disk.medium, t⟩ := by
  obtain ⟨m', t, q, hq, ho, hresult⟩ := h.hasOutcome (.write id data)
  refine ⟨t, q, hq, hresult.trans ?_⟩
  generalize ((Request.write id data).perform fs).1 = response at ho
  cases ho with
  | failed hother => exact absurd rfl hother
  | overlong hbytes hwhich =>
    obtain ⟨_, heq | heq⟩ := hwhich
    · cases heq
    · cases heq
      exact absurd hdata (Nat.not_le.mpr hbytes)
  | writtenUnknown hid =>
    rw [hfind] at hid
    cases hid
  | written hid =>
    rw [hfind] at hid
    cases hid
    rfl
  | listed hother => cases hother

/-- Once a directory in the root holds an entry that was forged, a request can break off. -/
theorem broken_of_forged {id : Int32} {f : OpenFile} (hopen : fs.opened.find? id = some f)
    (hposition : f.position = 0) {parent name : String} {e : Entry}
    (hentry : (table fs.disk.medium (Word.wide rootSector)).find? parent = some e)
    (hdir : e.isDirectory = true) (hsector : f.sector = e.sector) {path : String}
    (hsplit : Path.splitLast path = .ok ([parent], name)) {d : Directory} {q : Nat}
    (hforged : d.Forged name (f.header.sectorAt fs.disk.medium 0) q) (hq : fs.disk.count ≤ q) :
    ((Request.remove path).perform ((Request.write id d.image).perform fs).2).1
      = .failed (.broken (.outsideMap q)) := by
  have hc := h.sound.consistent
  have hf := h.sound.current id f hopen
  have hroom : d.image.size ≤ maxRoom := by
    rw [Directory.size_image, hforged.size_eq]
    decide
  obtain ⟨t, p, hp, hwritten⟩ := h.exists_write hopen hroom
  have hcovered := Script.size_medium (hf.within_writeScript hc d.image) hc.covered ▸ hc.covered
  rw [hf.header_eq, hsector] at hforged
  have hanswer := hc.answers_remove_forged hentry hdir hsplit hforged hq
  rw [← hsector, ← hf.header_eq, ← hposition] at hanswer
  obtain ⟨p', -, hremove⟩ := hanswer.eval hp hcovered
  rw [hwritten, Request.perform_remove_of_error hremove]

end FileSystem.Healthy

section

variable {m : Medium} {count : Nat} {path : String} {c : Creation} {p : FaultPlan} {t : OpenTable}

theorem FileSystem.run_open_directory (hs : Sound m count t) (hp : p.Faultless)
    (hplan : Creation.planDirectory m count path = .ok c) {draws : List Int32} {id : Int32}
    (hid : t.pick? draws = some id) : ∃ q, FaultPlan.Faultless q ∧
      FileSystem.run ⟨⟨m, count, p⟩, Volume.on m, t⟩
          [.createDirectory path, .openFile path draws]
        = ⟨⟨c.after m count, count, q⟩, Volume.on m,
            t.insert id (.opened (c.after m count) c.entry.sector)⟩ := by
  have hc := hs.consistent
  have hmade := (Creation.serves_of_planDirectory hc hplan).made hc fun k cause h =>
    Creation.clear_of_planDirectory hplan _ _ (.other h)
  obtain ⟨q, -, hcreate⟩ := Request.perform_createDirectory (t := t) hc hp hplan
  have hfs := (Healthy.of_sound hs hp).step (.createDirectory path) trivial
  rw [hcreate] at hfs
  obtain ⟨q', hq', hopen⟩ := hfs.perform_openFile hmade.found_eq hid
  refine ⟨q', hq', ?_⟩
  rw [FileSystem.run, hcreate, FileSystem.run, hopen, FileSystem.run]

theorem FileSystem.broken_of_new_directory (hs : Sound m count t) (hp : p.Faultless)
    (hplan : Creation.planDirectory m count path = .ok c) (hroot : c.parent = rootSector)
    {first : Nat} (hfirst : (Header.plannedData (sectorsFor c.size) c.rest)[0]? = some first)
    {draws : List Int32} {id : Int32} (hid : t.pick? draws = some id) {path' name : String}
    (hsplit : Path.splitLast path' = .ok ([c.name], name)) {d : Directory} {q : Nat}
    (hforged : d.Forged name first q) (hq : count ≤ q) :
    ((Request.remove path').perform (FileSystem.run ⟨⟨m, count, p⟩, Volume.on m, t⟩
      [.createDirectory path, .openFile path draws, .write id d.image])).1
        = .failed (.broken (.outsideMap q)) := by
  have hc := hs.consistent
  have hserves := Creation.serves_of_planDirectory hc hplan
  have hv := hserves.valid
  obtain ⟨p', -, hrun⟩ := FileSystem.run_open_directory hs hp hplan hid
  have hfs : FileSystem.Healthy (FileSystem.run ⟨⟨m, count, p⟩, Volume.on m, t⟩
      [.createDirectory path, .openFile path draws]) :=
    ((Healthy.of_sound hs hp).step (.createDirectory path) trivial).step (.openFile path draws)
      trivial
  rw [hrun] at hfs
  obtain ⟨hname, hnew⟩ := Creation.name_of_clear hserves fun k cause h =>
    Creation.clear_of_planDirectory hplan _ _ (.other h)
  have hentry := Creation.find?_after hc hv hname hnew _ .root c.name
  rw [if_pos ⟨by rw [hroot], rfl⟩] at hentry
  have hdir : c.entry.isDirectory = true := (Entry.isDirectory_named ..).mpr hserves.kind_eq
  obtain ⟨hheader, hintact, -, hdata, -⟩ := Creation.facts_of_held hv (Creation.held_after hc hv)
  have hwide : Word.wide c.entry.sector = c.sector := Creation.wide_sector hc hv
  obtain ⟨hpos, -⟩ := List.getElem?_eq_some_iff.mp hfirst
  rw [← hdata, hintact.length_data] at hpos
  have hsector := hintact.data_eq_some hpos
  rw [hdata, hfirst] at hsector
  rw [Option.some.inj hsector, ← hheader, ← hwide] at hforged
  have heq : FileSystem.run ⟨⟨m, count, p⟩, Volume.on m, t⟩
      [.createDirectory path, .openFile path draws, .write id d.image]
    = ((Request.write id d.image).perform (FileSystem.run ⟨⟨m, count, p⟩, Volume.on m, t⟩
      [.createDirectory path, .openFile path draws])).2 := rfl
  rw [heq, hrun]
  exact hfs.broken_of_forged (OpenTable.find?_insert.trans (if_pos rfl)) rfl hentry hdir rfl hsplit
    hforged hq

end

/-- One entry, which names sector 7. As a header it has sector 120 for its first one. -/
def forgedDirectory : Directory :=
  ⟨(Directory.empty directorySlots).slots.setIfInBounds 0 (.named "x" 7 .file)⟩

theorem forged_forgedDirectory : forgedDirectory.Forged "x" 7 120 := by
  have hfind : forgedDirectory.find? "x" = some (.named "x" 7 .file) := by decide +kernel
  have hdirect : (Header.ofSector (Vector.ofFn fun i =>
      forgedDirectory.image.getD i 0)).directSectors = [120, 0, 0, 0, 0, 0, 0] := by decide +kernel
  exact ⟨by decide, ⟨_, hfind, by decide, rfl⟩, ⟨_, _, hdirect, rfl⟩⟩

/-- A directory in a new volume is written, and then a request breaks off. -/
theorem broken_by_written_directory : ∃ fs,
    FileSystem.format ⟨.replicate (sectorSize * 16) 0, 16, {}⟩ = .ok fs ∧
    ((Request.remove "/d/x").perform (fs.run [.createDirectory "/d", .openFile "/d" [1],
      .write 1 forgedDirectory.image])).1 = .failed (.broken (.outsideMap 120)) := by
  have hsize : Medium.size (.replicate (sectorSize * 16) 0) = sectorSize * 16 :=
    Medium.size_replicate ..
  obtain ⟨q, hq, hformat⟩ := FileSystem.format_eq FaultPlan.faultless_default
    (Nat.le_of_eq hsize.symm) Formatting.valid_sixteen
  refine ⟨_, hformat, ?_⟩
  have hs : Sound (Formatting.after (.replicate (sectorSize * 16) 0) 16) 16 {} :=
    ⟨Formatting.consistent_after Formatting.valid_sixteen (Nat.le_of_eq hsize.symm), List.nodup_nil,
      nofun⟩
  exact FileSystem.broken_of_new_directory hs hq (Formatting.planDirectory_sixteen _) rfl
    (by decide) (by decide) (by decide) forged_forgedDirectory (by decide)

end IndexedDisk
