import IndexedDisk.Proofs.Twins

/-!
# What was on a disk before

Two disks with as many sectors take a volume together or refuse it for one reason, whatever was on
them, and all requests have the same answers on both. Only a read may tell them apart, by bytes of
a regular file that were not written since the file was made (`Request.Agrees`).

* `Coverage.step`: what has been written, as the requests and their answers tell.
* `InStep`: on twins a request is answered alike and leaves twins (`Twins.inStep`).
* `FileSystem.Twins.agree`: so it is for requests in a row.
-/

open IndexedDisk.Tree

namespace IndexedDisk

seal Tree.table

/-! ## What has been written -/

namespace Coverage

/-- Nothing has been written. -/
def none : Coverage := fun _ _ => False

/--
What has been written once a request was answered. A file that is made has not been written yet.
The files in `t` were open before, and `m` says where a path leads afterwards.
-/
def step (w : Coverage) (t : OpenTable) (m : Medium) : Request → Response → Coverage
  | .create path _, .done => fun s o => w s o ∧ ¬ Located m path s
  | .write id _, .written k => fun s o => w s o ∨ ∃ f : OpenFile, t.find? id = some f ∧
      s = Word.wide f.sector ∧ f.position ≤ o ∧ o < f.position + k
  | _, _ => w

/-- What has been written once a request was made to a file system. -/
def after (w : Coverage) (fs : FileSystem) (r : Request) : Coverage :=
  w.step fs.opened (r.perform fs).2.disk.medium r (r.perform fs).1

end Coverage

/--
Two answers to a request are the same. Only bytes that a read delivers may differ, if they are those
of a regular file and have not been written.
-/
inductive Request.Agrees (w : Coverage) (m : Medium) (t : OpenTable) :
    Request → Response → Response → Prop
  | same {r response} : Agrees w m t r response response
  | read {id buffer f k} {bytes bytes' : Array UInt8} (hf : t.find? id = some f)
      (hregular : Regular m (Word.wide f.sector)) (hsize : bytes'.size = bytes.size)
      (hbytes : ∀ i : Nat, bytes'[i]? ≠ bytes[i]? →
        i < k ∧ ¬ w (Word.wide f.sector) (f.position + i)) :
      Agrees w m t (.read id buffer) (.read k bytes) (.read k bytes')

namespace FileSystem

/-- The answers to requests that are made one after another agree, from a coverage on. -/
def Agree (w : Coverage) (fs fs' : FileSystem) : List Request → Prop
  | [] => True
  | r :: rest => r.Agrees w fs.disk.medium fs.opened (r.perform fs).1 (r.perform fs').1 ∧
      Agree (w.after fs r) (r.perform fs).2 (r.perform fs').2 rest

end FileSystem

/-! ## One request -/

variable {m m' : Medium} {count : Nat} {p p' : FaultPlan} {t : OpenTable} {w : Coverage}

/-- Two results of a request agree, with the same files open in one volume. -/
structure InStep (w : Coverage) (m : Medium) (count : Nat) (t : OpenTable) (r : Request)
    (result result' : Response × FileSystem) : Prop where
  agrees : r.Agrees w m t result.1 result'.1
  opened_eq : result'.2.opened = result.2.opened
  media : Tree.Twins (w.step t result.2.disk.medium r result.1) count result.2.disk.medium
    result'.2.disk.medium

theorem NewEntry.Goes.located_after {a : NewEntry} {c : Creation} {parents : List String}
    (h : a.Goes m count c parents) (hc : Consistent m count) :
    Located (c.after m count) a.path c.sector :=
  ⟨c.parent, c.name, c.entry, h.leadsTo_after hc h.serves.leads,
    (h.find?_after_iff hc h.walk_eq).mpr (Or.inr ⟨h.names_eq.symm, rfl⟩),
    Creation.wide_sector hc h.serves.valid⟩

namespace Tree.Twins

variable (h : Tree.Twins w count m m')

section

include h

theorem inStep_of_unchanged {r : Request} {response : Response} {v v' : Volume} {t₁ : OpenTable}
    {q q' : FaultPlan} {result result' : Response × FileSystem}
    (hw : w.step t m r response = w) (heq : result = (response, ⟨⟨m, count, q⟩, v, t₁⟩))
    (heq' : result' = (response, ⟨⟨m', count, q'⟩, v', t₁⟩)) :
    InStep w m count t r result result' := by
  rw [heq, heq']
  refine ⟨.same, rfl, ?_⟩
  show Tree.Twins (w.step t m r response) count m m'
  rwa [hw]

/-- Reads differ only in bytes that were not written. -/
theorem agrees_read (hc : Consistent m count) {id : Int32} {f : OpenFile} {buffer : Array UInt8}
    (hfind : t.find? id = some f) (hf : f.Current m) (hf' : f.Current m') {k : Nat}
    (hk : k = min (f.position + buffer.size) f.length - f.position) :
    Request.Agrees w m t (.read id buffer)
      (.read k (Bytes.overlay buffer 0
        ((f.header.contents m).extract f.position (f.position + buffer.size))))
      (.read k (Bytes.overlay buffer 0
        ((f.header.contents m').extract f.position (f.position + buffer.size)))) := by
  obtain ⟨d, i, hnames⟩ := hf.named
  obtain ⟨e, hd, hi, heq⟩ := names_entry_iff.mp hnames
  by_cases hdir : e.isDirectory = true
  · have hreached : Reached m (Word.wide f.sector) := heq ▸ .child hd hi hdir
    have hcontents := h.contents_eq_of_reached hc hreached
    rw [← hf.header_eq, ← hf'.header_eq] at hcontents
    rw [hcontents]
    exact .same
  · have hregular : Regular m (Word.wide f.sector) := ⟨d, i, e, hd, hi, hdir, heq⟩
    refine .read hfind hregular (by simp) fun j hj => ?_
    have hbyte := h.byte_eq _ hregular (f.position + j)
    rw [← hf.header_eq, ← hf'.header_eq] at hbyte
    have hlength : f.length = f.header.length := rfl
    rw [Bytes.getElem?_overlay, Bytes.getElem?_overlay, Array.size_extract, Array.size_extract,
      Header.size_contents, Header.size_contents, Array.getElem?_extract, Array.getElem?_extract,
      Header.size_contents, Header.size_contents, Nat.sub_zero] at hj
    by_cases hin : j < k
    · refine ⟨hin, fun hw => hj ?_⟩
      rw [hbyte hw]
    · rw [if_neg (by omega), if_neg (by omega)] at hj
      exact absurd rfl hj

end

section

variable (hs : Sound m count t) (hs' : Sound m' count t) (hp : p.Faultless) (hp' : p'.Faultless)
include h hs hs' hp hp'

theorem inStep_entry (a : NewEntry) : InStep w m count t a.request
    (a.request.perform ⟨⟨m, count, p⟩, Volume.on m, t⟩)
    (a.request.perform ⟨⟨m', count, p'⟩, Volume.on m', t⟩) := by
  have hc := hs.consistent
  have hc' := hs'.consistent
  have hfs := FileSystem.Healthy.of_sound hs hp
  have hfs' := FileSystem.Healthy.of_sound hs' hp'
  have hplan' := h.plan_eq a
  cases hplan : a.plan m count with
  | error cause =>
    rw [hplan] at hplan'
    obtain ⟨q, -, heq⟩ := NewEntry.perform_of_refused hfs hplan
    obtain ⟨q', -, heq'⟩ := NewEntry.perform_of_refused hfs' hplan'
    exact h.inStep_of_unchanged (by cases a <;> rfl) heq heq'
  | ok c =>
    rw [hplan] at hplan'
    obtain ⟨q, -, heq⟩ := NewEntry.perform_of_plan hfs hplan
    obtain ⟨q', -, heq'⟩ := NewEntry.perform_of_plan hfs' hplan'
    obtain ⟨parents, hgoes⟩ := NewEntry.exists_goes hc hplan
    have hlocated := hgoes.located_after hc
    rw [heq, heq']
    cases a with
    | file path size =>
      exact ⟨.same, rfl,
        h.made hc hc' hplan (fun s o ho => ho.1) fun _ o ho => ho.2 hlocated⟩
    | directory path =>
      exact ⟨.same, rfl, h.made hc hc' hplan (fun s o ho => ho) fun hkind =>
        absurd (hgoes.serves.kind_eq.symm.trans hkind) nofun⟩

theorem inStep_remove (path : String) : InStep w m count t (.remove path)
    ((Request.remove path).perform ⟨⟨m, count, p⟩, Volume.on m, t⟩)
    ((Request.remove path).perform ⟨⟨m', count, p'⟩, Volume.on m', t⟩) := by
  have hc := hs.consistent
  have hc' := hs'.consistent
  have hplan' := h.removal_eq path
  cases hplan : Removal.plan m path with
  | error cause =>
    rw [hplan] at hplan'
    obtain ⟨q, -, heq⟩ := Request.perform_remove_refused (t := t) hc hp hplan
    obtain ⟨q', -, heq'⟩ := Request.perform_remove_refused (t := t) hc' hp' hplan'
    exact h.inStep_of_unchanged rfl heq heq'
  | ok r =>
    rw [hplan] at hplan'
    obtain ⟨q, -, heq⟩ := Request.perform_remove (t := t) hc hp hplan
    obtain ⟨q', -, heq'⟩ := Request.perform_remove (t := t) hc' hp' hplan'
    rw [heq, heq']
    exact ⟨.same, rfl, h.removed hc hc' (Removal.serves_of_plan hplan).valid
      (Removal.serves_of_plan hplan').valid⟩

theorem inStep_openFile (path : String) (draws : List Int32) :
    InStep w m count t (.openFile path draws)
      ((Request.openFile path draws).perform ⟨⟨m, count, p⟩, Volume.on m, t⟩)
      ((Request.openFile path draws).perform ⟨⟨m', count, p'⟩, Volume.on m', t⟩) := by
  have hc := hs.consistent
  have hc' := hs'.consistent
  have hfound' := found_congr h.sameEntries path
  cases hfound : found m path with
  | error cause =>
    rw [hfound] at hfound'
    obtain ⟨q, -, heq⟩ := Request.perform_openFile_refused (t := t) hc hp draws hfound
    obtain ⟨q', -, heq'⟩ := Request.perform_openFile_refused (t := t) hc' hp' draws hfound'
    exact h.inStep_of_unchanged rfl heq heq'
  | ok e =>
    rw [hfound] at hfound'
    obtain ⟨q, -, heq⟩ := Request.perform_openFile (t := t) hc hp draws hfound
    obtain ⟨q', -, heq'⟩ := Request.perform_openFile (t := t) hc' hp' draws hfound'
    -- the header that is read is the same, and so is the file that is open from now on
    have hopened : OpenFile.opened m' e.sector = OpenFile.opened m e.sector := by
      obtain ⟨d, name, hleads, hfind⟩ := found_eq_ok.mp hfound
      obtain ⟨i, hi, -⟩ := exists_slot hfind
      rw [OpenFile.opened, OpenFile.opened, h.framed.stored_eq (.entry hleads.reached hi)]
    rw [hopened] at heq'
    rw [heq, heq']
    exact ⟨.same, rfl, h⟩

omit hs hs' hp hp' in
theorem inStep_close (id : Int32) : InStep w m count t (.close id)
    ((Request.close id).perform ⟨⟨m, count, p⟩, Volume.on m, t⟩)
    ((Request.close id).perform ⟨⟨m', count, p'⟩, Volume.on m', t⟩) := by
  cases hfind : t.find? id with
  | none =>
    exact h.inStep_of_unchanged rfl (Request.respond_error (FileSystem.close_eq_unknown hfind))
      (Request.respond_error (FileSystem.close_eq_unknown hfind))
  | some f =>
    exact h.inStep_of_unchanged rfl (Request.respond_ok (FileSystem.close_eq hfind))
      (Request.respond_ok (FileSystem.close_eq hfind))

theorem inStep_read (id : Int32) (buffer : Array UInt8) : InStep w m count t (.read id buffer)
    ((Request.read id buffer).perform ⟨⟨m, count, p⟩, Volume.on m, t⟩)
    ((Request.read id buffer).perform ⟨⟨m', count, p'⟩, Volume.on m', t⟩) := by
  have hc := hs.consistent
  have hc' := hs'.consistent
  cases hfind : t.find? id with
  | none =>
    exact h.inStep_of_unchanged rfl
      (Request.respond_ok (FileSystem.read_eq_unknown hfind buffer))
      (Request.respond_ok (FileSystem.read_eq_unknown hfind buffer))
  | some f =>
    have hf := hs.current id f hfind
    have hf' := hs'.current id f hfind
    by_cases hin : f.InRange f.position buffer.size
    · obtain ⟨q, -, heq⟩ := Request.perform_read hc hp hfind hf hin
      obtain ⟨q', -, heq'⟩ := Request.perform_read hc' hp' hfind hf' hin
      rw [heq, heq']
      exact ⟨h.agrees_read hc hfind hf hf' rfl, rfl, h⟩
    · obtain ⟨q, -, heq⟩ := Request.perform_read_overlong hc hp hfind hf hin
      obtain ⟨q', -, heq'⟩ := Request.perform_read_overlong hc' hp' hfind hf' hin
      exact h.inStep_of_unchanged rfl heq heq'

theorem inStep_write {id : Int32} {data : Array UInt8}
    (hr : (Request.write id data).Admissible m t) : InStep w m count t (.write id data)
      ((Request.write id data).perform ⟨⟨m, count, p⟩, Volume.on m, t⟩)
      ((Request.write id data).perform ⟨⟨m', count, p'⟩, Volume.on m', t⟩) := by
  have hc := hs.consistent
  have hc' := hs'.consistent
  cases hfind : t.find? id with
  | none =>
    rw [Request.perform, Request.perform,
      Request.respond_ok (FileSystem.write_eq_unknown hfind data),
      Request.respond_ok (FileSystem.write_eq_unknown hfind data)]
    refine ⟨.same, rfl, h.mono fun s o ho => ?_⟩
    rcases ho with ho | ⟨f, hf, -⟩
    · exact ho
    · rw [hfind] at hf
      cases hf
  | some f =>
    have hf := hs.current id f hfind
    have hf' := hs'.current id f hfind
    by_cases hin : f.InRange f.position data.size
    · obtain ⟨q, -, heq⟩ := Request.perform_write hc hp hfind hf hin
      obtain ⟨q', -, heq'⟩ := Request.perform_write hc' hp' hfind hf' hin
      obtain ⟨k, hk⟩ : ∃ k, min (f.position + data.size) f.length - f.position = k := ⟨_, rfl⟩
      rw [heq, heq', hk]
      -- what has been written now was written before, or is covered by the data
      have hcover (s o : Nat) (ho : w.step t m (.write id data) (.written k) s o) :
          w s o ∨ (s = Word.wide f.sector ∧ f.position ≤ o ∧ o < f.position + data.size) := by
        rcases ho with ho | ⟨g, hg, hsector, hstart, hstop⟩
        · exact Or.inl ho
        · obtain rfl := Option.some.inj (hfind.symm.trans hg)
          exact Or.inr ⟨hsector, hstart, by omega⟩
      have hwritten := h.written hc hc' (hr f hfind) hcover
      rw [← hf.header_eq, ← hf'.header_eq] at hwritten
      exact ⟨.same, rfl, hwritten⟩
    · obtain ⟨q, -, heq⟩ := Request.perform_write_overlong hc hp hfind hf hin
      obtain ⟨q', -, heq'⟩ := Request.perform_write_overlong hc' hp' hfind hf' hin
      exact h.inStep_of_unchanged rfl heq heq'

theorem inStep_look {α : Type} {g : Volume → DiskM α} {result : Except Failure α} {r : Request}
    (hact : Answers m count (g (Volume.on m)) result)
    (hact' : Answers m' count (g (Volume.on m')) result) (f : α → Response)
    (hr : r matches .list .. | .listTree .. | .freeSectors) : InStep w m count t r
      (Request.respond f (do liftM (g (← FileSystem.getVolume))) ⟨⟨m, count, p⟩, Volume.on m, t⟩)
      (Request.respond f (do liftM (g (← FileSystem.getVolume)))
        ⟨⟨m', count, p'⟩, Volume.on m', t⟩) := by
  have hfs := FileSystem.Healthy.of_sound hs hp
  have hfs' := FileSystem.Healthy.of_sound hs' hp'
  obtain ⟨q, -, heq⟩ := hfs.exists_respond_eq hact (FileSystem.getVolume_bind g) f
  obtain ⟨q', -, heq'⟩ := hfs'.exists_respond_eq hact' (FileSystem.getVolume_bind g) f
  refine h.inStep_of_unchanged ?_ heq heq'
  cases r with
  | list | listTree | freeSectors => rfl
  | _ => cases hr

theorem inStep_remount : InStep w m count t .remount
    (Request.remount.perform ⟨⟨m, count, p⟩, Volume.on m, t⟩)
    (Request.remount.perform ⟨⟨m', count, p'⟩, Volume.on m', t⟩) := by
  obtain ⟨q, -, heq⟩ := Request.perform_remount (t := t) hs.consistent hp
  obtain ⟨q', -, heq'⟩ := Request.perform_remount (t := t) hs'.consistent hp'
  exact h.inStep_of_unchanged rfl heq heq'

/-- Every request is answered alike, and leaves one volume. -/
theorem inStep {r : Request} (hr : r.Admissible m t) : InStep w m count t r
    (r.perform ⟨⟨m, count, p⟩, Volume.on m, t⟩) (r.perform ⟨⟨m', count, p'⟩, Volume.on m', t⟩) := by
  have hc := hs.consistent
  have hc' := hs'.consistent
  cases r with
  | create path size => exact h.inStep_entry hs hs' hp hp' (.file path size)
  | createDirectory path => exact h.inStep_entry hs hs' hp hp' (.directory path)
  | remove path => exact h.inStep_remove hs hs' hp hp' path
  | openFile path draws => exact h.inStep_openFile hs hs' hp hp' path draws
  | close id => exact h.inStep_close id
  | read id buffer => exact h.inStep_read hs hs' hp hp' id buffer
  | write id data => exact h.inStep_write hs hs' hp hp' hr
  | list path =>
    have hact' := hc'.answers_list path
    rw [listed_congr h.sameEntries] at hact'
    exact h.inStep_look (g := (·.list path)) hs hs' hp hp' (hc.answers_list path) hact' _ rfl
  | listTree path =>
    have hact' := hc'.answers_listTree path
    rw [listedTree_congr h.sameEntries] at hact'
    exact h.inStep_look (g := (·.listTree path)) hs hs' hp hp' (hc.answers_listTree path) hact' _
      rfl
  | freeSectors =>
    have hact' := hc'.answers_freeSectors
    rw [h.bitmap_eq] at hact'
    exact h.inStep_look (g := Volume.freeSectors) hs hs' hp hp' hc.answers_freeSectors hact'
      .counted rfl
  | remount => exact h.inStep_remount hs hs' hp hp'

end

end Tree.Twins

/-! ## Requests in a row -/

namespace FileSystem

variable {fs fs' : FileSystem}

/-- Two file systems have the same files open in one volume, on disks with as many sectors. -/
structure Twins (w : Coverage) (fs fs' : FileSystem) : Prop where
  healthy : fs.Healthy
  healthy' : fs'.Healthy
  count_eq : fs'.disk.count = fs.disk.count
  opened_eq : fs'.opened = fs.opened
  media : Tree.Twins w fs.disk.count fs.disk.medium fs'.disk.medium

namespace Twins

theorem admissible (h : Twins w fs fs') {r : Request}
    (hr : r.Admissible fs.disk.medium fs.opened) :
    r.Admissible fs'.disk.medium fs'.opened := by
  cases r with
  | write id data =>
    intro f hf
    rw [h.opened_eq] at hf
    exact h.media.regular_iff.mpr (hr f hf)
  | _ => trivial

theorem step (h : Twins w fs fs') {r : Request} (hr : r.Admissible fs.disk.medium fs.opened) :
    r.Agrees w fs.disk.medium fs.opened (r.perform fs).1 (r.perform fs').1 ∧
      Twins (w.after fs r) (r.perform fs).2 (r.perform fs').2 := by
  have hhealthy := h.healthy.step r hr
  have hhealthy' := h.healthy'.step r (h.admissible hr)
  have hcount := h.healthy.count_eq r
  have hcount' := h.healthy'.count_eq r
  have hstep : InStep w fs.disk.medium fs.disk.count fs.opened r (r.perform fs)
      (r.perform fs') := by
    obtain ⟨hfs, hfs', hn, ht, hmedia⟩ := h
    obtain ⟨⟨m, count, p⟩, v, t⟩ := fs
    obtain ⟨⟨m', count', p'⟩, v', t'⟩ := fs'
    obtain ⟨hs, hp, hv⟩ := hfs
    obtain ⟨hs', hp', hv'⟩ := hfs'
    dsimp only at hs hs' hp hp' hv hv' hn ht hmedia hr ⊢
    subst hv hv' hn ht
    exact hmedia.inStep hs hs' hp hp' hr
  refine ⟨hstep.agrees, hhealthy, hhealthy', ?_, hstep.opened_eq, ?_⟩
  · rw [hcount, hcount', h.count_eq]
  · rw [hcount]
    exact hstep.media

theorem agree (h : Twins w fs fs') {rs : List Request} (hrs : fs.Admits rs) :
    fs'.Admits rs ∧ Agree w fs fs' rs ∧ (fs'.run rs).opened = (fs.run rs).opened := by
  induction rs generalizing w fs fs' with
  | nil => exact ⟨trivial, trivial, h.opened_eq⟩
  | cons r rest ih =>
    obtain ⟨hr, hrest⟩ := hrs
    obtain ⟨hagrees, hafter⟩ := h.step hr
    obtain ⟨hadmits, hagree, hopened⟩ := ih hafter hrest
    exact ⟨⟨h.admissible hr, hadmits⟩, ⟨hagrees, hagree⟩, hopened⟩

end Twins

end FileSystem

/--
**Old contents never matter.** Two disks without faults that have as many sectors both take a volume
or refuse it for the same reason, whatever was on them. The two volumes then have the same answers
to the same requests, but for bytes of regular files that were not written since the file was made,
and have the same files open under the same ids.
-/
theorem answers_ignore_old_contents {disk disk' : Disk} (hcount : disk'.count = disk.count)
    (hfaults : disk.faults.Faultless) (hfaults' : disk'.faults.Faultless)
    (hmedium : sectorSize * disk.count ≤ disk.medium.size)
    (hmedium' : sectorSize * disk'.count ≤ disk'.medium.size) :
    (∃ cause left left', FileSystem.format disk = .error (cause, left) ∧
      FileSystem.format disk' = .error (cause, left')) ∨
    ∃ fs fs', FileSystem.format disk = .ok fs ∧ FileSystem.format disk' = .ok fs' ∧
      fs'.volume = fs.volume ∧ ∀ rs, fs.Admits rs → fs'.Admits rs ∧
        FileSystem.Agree .none fs fs' rs ∧ (fs'.run rs).opened = (fs.run rs).opened := by
  by_cases hv : Formatting.Valid disk.count
  · obtain ⟨m, count, p⟩ := disk
    obtain ⟨m', count', p'⟩ := disk'
    dsimp only at hcount hfaults hfaults' hmedium hmedium' hv
    subst hcount
    obtain ⟨q, hq, hformat⟩ := FileSystem.format_eq hfaults hmedium hv
    obtain ⟨q', hq', hformat'⟩ := FileSystem.format_eq hfaults' hmedium' hv
    have htwins := Formatting.twins_after hv .none m m'
    refine Or.inr ⟨_, _, hformat, hformat', htwins.framed.on_eq, fun rs hrs => ?_⟩
    have hhealthy := FileSystem.Healthy.of_format hfaults hmedium hformat
    have hhealthy' := FileSystem.Healthy.of_format hfaults' hmedium' hformat'
    exact FileSystem.Twins.agree ⟨hhealthy, hhealthy', rfl, rfl, htwins⟩ hrs
  · obtain ⟨left, herror⟩ := FileSystem.format_error hfaults hmedium hv
    obtain ⟨left', herror'⟩ := FileSystem.format_error hfaults' hmedium' (hcount ▸ hv)
    rw [hcount] at herror'
    exact Or.inl ⟨_, left, left', herror, herror'⟩

/-- Of two disks of sixteen sectors one is full of zeros and the other is not. -/
theorem answers_ignore_old_contents_filled : ∃ disk disk' : Disk, disk'.count = disk.count ∧
    disk.faults.Faultless ∧ disk'.faults.Faultless ∧
    sectorSize * disk.count ≤ disk.medium.size ∧ sectorSize * disk'.count ≤ disk'.medium.size ∧
    disk.medium.byteAt 0 = 0 ∧ disk'.medium.byteAt 0 = 0xAA ∧
    ∃ fs fs' rs, FileSystem.format disk = .ok fs ∧ FileSystem.format disk' = .ok fs' ∧
      fs'.volume = fs.volume ∧ rs = [.create "/a" 200, .openFile "/a" [5], .write 5 #[1, 2, 3],
        .openFile "/a" [6], .read 6 (Array.replicate 200 0)] ∧ fs.Admits rs ∧ fs'.Admits rs ∧
      FileSystem.Agree .none fs fs' rs ∧ (fs'.run rs).opened = (fs.run rs).opened := by
  let filled (b : UInt8) : Disk := ⟨.replicate (sectorSize * 16) b, 16, {}⟩
  have hfaults (b : UInt8) : (filled b).faults.Faultless := FaultPlan.faultless_default
  have hsize (b : UInt8) : sectorSize * (filled b).count ≤ (filled b).medium.size :=
    Nat.le_of_eq (Medium.size_replicate ..).symm
  have hbyte (b : UInt8) : (filled b).medium.byteAt 0 = b := by
    change (Medium.replicate (sectorSize * 16) b).byteAt 0 = b
    rw [Medium.byteAt_eq, Medium.replicate, Array.getElem?_replicate, if_pos (by decide)]
    rfl
  have hcount : (filled 0xAA).count = (filled 0).count := rfl
  refine ⟨filled 0, filled 0xAA, hcount, hfaults 0, hfaults 0xAA, hsize 0, hsize 0xAA, hbyte 0,
    hbyte 0xAA, ?_⟩
  rcases answers_ignore_old_contents hcount (hfaults 0) (hfaults 0xAA) (hsize 0) (hsize 0xAA) with
    ⟨cause, left, left', herror, -⟩ | ⟨fs, fs', hformat, hformat', hvolume, h⟩
  · obtain ⟨q, -, hformat⟩ := FileSystem.format_eq (hfaults 0) (hsize 0) Formatting.valid_sixteen
    cases herror.symm.trans hformat
  · obtain ⟨hv, q, -, heq⟩ := FileSystem.eq_of_format (hfaults 0) (hsize 0) hformat
    have hflat : Flat fs.disk.medium := heq ▸ Formatting.flat_after hv
    have hrs := (FileSystem.Healthy.of_format (hfaults 0) (hsize 0) hformat).admits_of_flat hflat
      [.create "/a" 200, .openFile "/a" [5], .write 5 #[1, 2, 3], .openFile "/a" [6],
        .read 6 (Array.replicate 200 0)] (by simp)
    exact ⟨fs, fs', _, hformat, hformat', hvolume, rfl, hrs, h _ hrs⟩

end IndexedDisk
