import IndexedDisk.Proofs.Requests

/-!
# Files as byte arrays

A `Ledger` has one array of bytes for each regular file, under the sector of its header, and for
each id in use the file and the position. `Ledger.Step` says what a request does to it, in terms of
the arrays alone: a transfer moves bytes between one array and the caller and moves one position on,
and no other request changes an array.

* `Represents`: the arrays are what the files hold.
* `Outcome.ledger_step`: whatever a request does to a file system is a step of its ledger.
* `explained_of_format`: a ledger that starts empty explains all answers of a run.
-/

open IndexedDisk.Tree

namespace IndexedDisk

/-- The files of a file system and the ids that are open on them. -/
structure Ledger where
  /-- What the regular file with its header in a sector holds. -/
  files : Nat → Option (Array UInt8)
  /-- The header and the position of the file that is open under an id. -/
  handles : Int32 → Option (Nat × Nat)

namespace Ledger

/-- No files, and none of them open. -/
def empty : Ledger where
  files _ := none
  handles _ := none

variable (l : Ledger)

/-- The ledger with `bytes` for the file at `s`. -/
def setFile (s : Nat) (bytes : Array UInt8) : Ledger :=
  { l with files := fun s' => if s' = s then some bytes else l.files s' }

/-- The ledger with another handle under an id. -/
def setHandle (id : Int32) (handle : Option (Nat × Nat)) : Ledger :=
  { l with handles := fun id' => if id' = id then handle else l.handles id' }

/-- The ledger without the file at `s`, which is open no more. -/
def forget (s : Nat) : Ledger where
  files s' := if s' = s then none else l.files s'
  handles id := (l.handles id).filter fun handle => handle.1 ≠ s

/-- The ledger with no id in use. -/
def closeAll : Ledger := { l with handles := fun _ => none }

end Ledger

/-- The path ends with an entry whose header lies in this sector. -/
def Tree.Located (m : Medium) (path : String) (s : Nat) : Prop :=
  ∃ p name e, LeadsTo m path p name ∧ (table m (Word.wide p)).find? name = some e ∧
    Word.wide e.sector = s

/-- What a request and its answer do to a ledger. The medium says where a path leads. -/
inductive Ledger.Step (m : Medium) (l : Ledger) : Request → Response → Ledger → Prop
  | failed {r cause} (hr : ¬ r matches .read .. | .write .. | .remount) :
      Step m l r (.failed cause) l
  /-- No buffer has so many bytes. -/
  | overlong {r cause} {bytes : Array UInt8} (hbytes : maxRoom < bytes.size)
      (hr : ∃ id, r = .read id bytes ∨ r = .write id bytes) : Step m l r (.failed cause) l
  /-- A file that is made is a new one, has the size that was asked for, and is not open. -/
  | created {path size s bytes} (hnew : l.files s = none) (hsize : bytes.size = size)
      (hclosed : ∀ id p, l.handles id ≠ some (s, p)) :
      Step m l (.create path size) .done (l.setFile s bytes)
  | createdDirectory {path} : Step m l (.createDirectory path) .done l
  /-- The file or the directory that is removed is closed. -/
  | removed {path s} (hs : Located m path s) : Step m l (.remove path) .done (l.forget s)
  | openedNone {path draws} : Step m l (.openFile path draws) (.opened none) l
  /-- An id that was not in use stands at the start of the file. -/
  | opened {path draws id s} (hs : Located m path s) (hid : l.handles id = none) :
      Step m l (.openFile path draws) (.opened (some id)) (l.setHandle id (some (s, 0)))
  | closed {id handle} (hid : l.handles id = some handle) :
      Step m l (.close id) .done (l.setHandle id none)
  | readUnknown {id buffer} (hid : l.handles id = none) :
      Step m l (.read id buffer) (.read 0 buffer) l
  /-- A directory is not in the ledger, but its position is. -/
  | readDirectory {id s p k buffer result} (hid : l.handles id = some (s, p))
      (hs : l.files s = none) :
      Step m l (.read id buffer) (.read k result) (l.setHandle id (some (s, p + k)))
  /-- A read delivers what there is from the position on, and moves it. -/
  | read {id s p k buffer bytes} (hid : l.handles id = some (s, p)) (hs : l.files s = some bytes)
      (hp : p ≤ bytes.size) (hk : k = min buffer.size (bytes.size - p)) :
      Step m l (.read id buffer) (.read k (Bytes.overlay buffer 0 (bytes.extract p (p + k))))
        (l.setHandle id (some (s, p + k)))
  | writtenUnknown {id data} (hid : l.handles id = none) : Step m l (.write id data) (.written 0) l
  /-- A write replaces what there is from the position on, and moves it. -/
  | written {id s p k data bytes} (hid : l.handles id = some (s, p)) (hs : l.files s = some bytes)
      (hp : p ≤ bytes.size) (hk : k = min data.size (bytes.size - p)) :
      Step m l (.write id data) (.written k)
        ((l.setFile s (Bytes.overlay bytes p (data.extract 0 k))).setHandle id (some (s, p + k)))
  | listed {r response} (hr : r matches .list .. | .listTree .. | .freeSectors) :
      Step m l r response l
  | remounted : Step m l .remount .done l.closeAll

/-- The ledger has what the files on the medium hold, and the ids that are in use. -/
structure Ledger.Represents (l : Ledger) (m : Medium) (t : OpenTable) : Prop where
  files : ∀ s bytes, l.files s = some bytes ↔
    Regular m s ∧ (Header.stored m s).contents m = bytes
  handles : ∀ id, l.handles id = (t.find? id).map fun f => (Word.wide f.sector, f.position)

/-! ## Which files are regular -/

section

variable {m m' : Medium} {count : Nat}

theorem Tree.Regular.exists_names {s : Nat} (h : Regular m s) : ∃ d i, Names m (.entry d i) s := by
  obtain ⟨d, i, e, hd, hi, -, rfl⟩ := h
  exact ⟨d, i, .entry hd hi⟩

theorem Tree.SameTree.regular_iff (h : SameTree m m') (hc : Consistent m count) {s : Nat} :
    Regular m' s ↔ Regular m s := by
  constructor
  · rintro ⟨d, i, e, hd, hi, he⟩
    have hd := (h.reached_iff hc).mp hd
    exact ⟨d, i, e, hd, h.slot?_eq hc d hd i ▸ hi, he⟩
  · rintro ⟨d, i, e, hd, hi, he⟩
    exact ⟨d, i, e, (h.reached_iff hc).mpr hd, (h.slot?_eq hc d hd i).trans hi, he⟩

theorem Tree.Rewritten.contents_eq {p s : Nat} {d : Directory} {map : SectorMap}
    (h : Rewritten m m' count p d map) (hc : Consistent m count) (hp : Reached m p)
    (hs : Regular m s) :
    (Header.stored m' s).contents m' = (Header.stored m s).contents m := by
  obtain ⟨d, i, hnames⟩ := hs.exists_names
  refine (h.framed hc hp).contents_eq_of (.refl m) hnames (hc.intact _ _ hnames) fun j hj =>
    h.get_data hc hp hnames hj nofun ?_
  rintro rfl
  exact hc.not_reached_of_regular hs hp

theorem Tree.Consistent.contents_written (hc : Consistent m count) {s s' : Nat} (hs : Regular m s)
    (hs' : Regular m s') (position : Nat) (data : Array UInt8) {a : Medium}
    (ha : a = ((Header.stored m s).writeScript m position data).medium m) :
    (Header.stored a s').contents a =
      if s' = s then Bytes.overlay ((Header.stored m s).contents m) position data
      else (Header.stored m s').contents m := by
  subst ha
  obtain ⟨d, i, hnames⟩ := hs.exists_names
  obtain ⟨d', i', hnames'⟩ := hs'.exists_names
  rw [(hc.framed_write hnames position data).stored_eq hnames']
  by_cases heq : s' = s
  · subst heq
    rw [if_pos rfl, Header.contents_writeScript position data (hc.intact _ _ hnames)
      (hc.separate hnames)]
  · rw [if_neg heq]
    refine hc.contents_write hnames hnames' (fun howner => ?_) (fun _ _ => rfl) position data
    rw [howner] at hnames'
    exact heq (names_functional hnames' hnames)

theorem Creation.regular_after {c : Creation} (hc : Consistent m count) (hv : c.Valid m count)
    {s : Nat} : Regular (c.after m count) s ↔ Regular m s ∨ (c.kind = .file ∧ s = c.sector) := by
  have hsector : Word.wide c.entry.sector = c.sector := wide_sector hc hv
  have hdirectory : c.entry.isDirectory = true ↔ c.kind = .directory := Entry.isDirectory_named ..
  constructor
  · rintro ⟨d, i, e, hd, hi, he, rfl⟩
    rcases (reached_after hc hv).mp hd with hd | ⟨hkind, rfl⟩
    · rw [slot?_after hc hv d hd] at hi
      split at hi
      · obtain rfl := Option.some.inj hi
        rw [hdirectory] at he
        refine Or.inr ⟨?_, hsector⟩
        cases hkind : c.kind with
        | file => rfl
        | directory => exact absurd hkind he
      · exact Or.inl ⟨d, i, e, hd, hi, he, rfl⟩
    · rw [← hsector, slot?_after_new hc hv (hdirectory.mpr hkind)] at hi
      cases hi
  · rintro (⟨d, i, e, hd, hi, he⟩ | ⟨hkind, rfl⟩)
    · refine ⟨d, i, e, (reached_after hc hv).mpr (Or.inl hd), ?_, he⟩
      rw [slot?_after hc hv d hd, if_neg]
      · exact hi
      · rintro ⟨rfl, rfl⟩
        rw [hv.slot_free] at hi
        cases hi
    · refine ⟨_, c.slot, c.entry, (reached_after hc hv).mpr (Or.inl hv.parent), ?_, ?_, hsector⟩
      · rw [slot?_after hc hv _ hv.parent, if_pos ⟨rfl, rfl⟩]
      · rw [hdirectory, hkind]
        nofun

theorem Removal.regular_after {r : Removal} (hc : Consistent m count) (hv : r.Valid m) {s : Nat} :
    Regular (r.after m count) s ↔ Regular m s ∧ s ≠ Word.wide r.entry.sector := by
  constructor
  · rintro ⟨d, i, e, hd, hi, he, rfl⟩
    obtain ⟨hd, -⟩ := (reached_after hc hv).mp hd
    rw [slot?_after hc hv d hd] at hi
    split at hi
    · cases hi
    · rename_i hne
      refine ⟨⟨d, i, e, hd, hi, he, rfl⟩, fun heq => hne ?_⟩
      cases names_unique hc hv _ _ (.entry hd hi) heq
      exact ⟨rfl, rfl⟩
  · rintro ⟨⟨d, i, e, hd, hi, he, rfl⟩, hne⟩
    have hentry : ¬ (d = Word.wide r.parent ∧ i = r.slot) := by
      rintro ⟨rfl, rfl⟩
      rw [hv.slot] at hi
      cases hi
      exact hne rfl
    have hd' : d ≠ Word.wide r.entry.sector := by
      rintro rfl
      rw [hv.blank (isDirectory_of_reached hv.slot (names_unique hc hv) hd)] at hi
      cases hi
    refine ⟨d, i, e, (reached_after hc hv).mpr ⟨hd, hd'⟩, ?_, he, rfl⟩
    rw [slot?_after hc hv d hd, if_neg hentry]
    exact hi

end

/-! ## What is represented -/

namespace Ledger.Represents

variable {l : Ledger} {m m' : Medium} {t t' : OpenTable} (hl : l.Represents m t)
include hl

theorem file_eq {s : Nat} (hs : Regular m s) :
    l.files s = some ((Header.stored m s).contents m) :=
  (hl.files s _).mpr ⟨hs, rfl⟩

theorem file_eq_none {s : Nat} (hs : ¬ Regular m s) : l.files s = none := by
  cases hfile : l.files s with
  | none => rfl
  | some bytes => exact absurd ((hl.files s bytes).mp hfile).1 hs

theorem handle_eq {id : Int32} {f : OpenFile} (hf : t.find? id = some f) :
    l.handles id = some (Word.wide f.sector, f.position) := by
  rw [hl.handles, hf]
  rfl

theorem handle_eq_none {id : Int32} (hid : t.find? id = none) : l.handles id = none := by
  rw [hl.handles, hid]
  rfl

theorem setHandle {id : Int32} {f : Option OpenFile}
    (ht : ∀ j, t'.find? j = if j = id then f else t.find? j) :
    (l.setHandle id (f.map fun f => (Word.wide f.sector, f.position))).Represents m t' where
  files := hl.files
  handles j := by
    rw [ht]
    by_cases hj : j = id
    · rw [if_pos hj]
      exact if_pos hj
    · rw [if_neg hj, ← hl.handles]
      exact if_neg hj

theorem setFile {s : Nat} {bytes : Array UInt8}
    (hregular : ∀ s', Regular m' s' ↔ Regular m s' ∨ s' = s)
    (hcontents : ∀ s', s' ≠ s → Regular m s' →
      (Header.stored m' s').contents m' = (Header.stored m s').contents m)
    (hs : (Header.stored m' s).contents m' = bytes) : (l.setFile s bytes).Represents m' t where
  files s' b := by
    rw [hregular]
    by_cases heq : s' = s
    · subst heq
      rw [hs]
      have hfile : (l.setFile s' bytes).files s' = some bytes := if_pos rfl
      rw [hfile, Option.some.injEq]
      exact ⟨fun h => ⟨Or.inr rfl, h⟩, fun h => h.2⟩
    · have hfile : (l.setFile s bytes).files s' = l.files s' := if_neg heq
      rw [hfile, hl.files]
      constructor
      · rintro ⟨hs', rfl⟩
        exact ⟨Or.inl hs', hcontents s' heq hs'⟩
      · rintro ⟨hs', rfl⟩
        have hs' := hs'.resolve_right heq
        exact ⟨hs', (hcontents s' heq hs').symm⟩
  handles := hl.handles

theorem congr (hregular : ∀ s, Regular m' s ↔ Regular m s)
    (hcontents : ∀ s, Regular m s →
      (Header.stored m' s).contents m' = (Header.stored m s).contents m) :
    l.Represents m' t where
  files s bytes := by
    rw [hl.files, hregular]
    constructor
    · rintro ⟨hs, rfl⟩
      exact ⟨hs, hcontents s hs⟩
    · rintro ⟨hs, rfl⟩
      exact ⟨hs, (hcontents s hs).symm⟩
  handles := hl.handles

theorem forget {sector : Int32} (hdistinct : t.Distinct)
    (hregular : ∀ s, Regular m' s ↔ Regular m s ∧ s ≠ Word.wide sector)
    (hcontents : ∀ s, Regular m s →
      (Header.stored m' s).contents m' = (Header.stored m s).contents m) :
    (l.forget (Word.wide sector)).Represents m' (t.eraseSector sector) where
  files s bytes := by
    rw [hregular]
    by_cases heq : s = Word.wide sector
    · have hfile : (l.forget (Word.wide sector)).files s = none := if_pos heq
      rw [hfile]
      exact ⟨nofun, fun h => absurd heq h.1.2⟩
    · have hfile : (l.forget (Word.wide sector)).files s = l.files s := if_neg heq
      rw [hfile, hl.files]
      constructor
      · rintro ⟨hs, rfl⟩
        exact ⟨⟨hs, heq⟩, hcontents s hs⟩
      · rintro ⟨⟨hs, -⟩, rfl⟩
        exact ⟨hs, (hcontents s hs).symm⟩
  handles id := by
    change (l.handles id).filter (fun handle => handle.1 ≠ Word.wide sector) = _
    rw [hl.handles, OpenTable.find?_eraseSector hdistinct]
    cases t.find? id with
    | none => rfl
    | some f =>
      by_cases heq : f.sector = sector
      · simp [Option.filter, heq]
      · have hwide : Word.wide f.sector ≠ Word.wide sector := fun h =>
          heq (Word.wide_injective h)
        simp [Option.filter, heq, hwide]

theorem closeAll : l.closeAll.Represents m {} := ⟨hl.files, fun _ => rfl⟩

end Ledger.Represents

/-! ## Steps -/

theorem Bytes.overlay_extract (target source : Array UInt8) (start : Nat) :
    overlay target start (source.extract 0 (min source.size (target.size - start)))
      = overlay target start source := by
  apply Array.ext_getElem?
  intro i
  rw [getElem?_overlay, getElem?_overlay, Array.size_extract, Array.getElem?_extract]
  by_cases hi : start ≤ i ∧ i < start + source.size ∧ i < target.size
  · rw [if_pos hi, if_pos (by omega), if_pos (by omega), Nat.zero_add]
  · rw [if_neg hi, if_neg (by omega)]

theorem Bytes.extract_min (bytes : Array UInt8) (start n : Nat) :
    bytes.extract start (start + min n (bytes.size - start))
      = bytes.extract start (start + n) := by
  apply Array.ext_getElem?
  intro i
  rw [Array.getElem?_extract, Array.getElem?_extract]
  by_cases hi : i < min (start + n) bytes.size - start
  · rw [if_pos hi, if_pos (by omega)]
  · rw [if_neg hi, if_neg (by omega)]

section

variable {m m' : Medium} {count : Nat} {t t' : OpenTable} {r : Request} {response : Response}
  {l : Ledger}

theorem Ledger.Represents.write (hl : l.Represents m t) (hc : Consistent m count) {f : OpenFile}
    (hf : f.Current m) (hs : Regular m (Word.wide f.sector)) (data : Array UInt8) :
    (l.setFile (Word.wide f.sector)
      (Bytes.overlay (f.header.contents m) f.position data)).Represents
        ((f.header.writeScript m f.position data).medium m) t := by
  have hsame := hc.sameTree_write hs f.position data
  have hcontents {s' : Nat} (hs' : Regular m s') :=
    hc.contents_written hs hs' f.position data rfl
  rw [← hf.header_eq] at hsame hcontents
  refine hl.setFile (fun s' => ?_) (fun s' hne hs' => ?_) ?_
  · rw [hsame.regular_iff hc]
    exact ⟨Or.inl, fun h => h.elim id fun h => h ▸ hs⟩
  · rw [hcontents hs', if_neg hne]
  · rw [hcontents hs, if_pos rfl]

theorem Ledger.Represents.create (hl : l.Represents m t) (hc : Consistent m count) {c : Creation}
    (hv : c.Valid m count) (hkind : c.kind = .file) : (l.setFile c.sector
      ((Header.stored (c.after m count) c.sector).contents (c.after m count))).Represents
        (c.after m count) t := by
  refine hl.setFile (fun s => ?_) (fun s _ hs =>
    (Creation.rewritten_after hc hv).contents_eq hc hv.parent hs) rfl
  rw [Creation.regular_after hc hv]
  exact or_congr_right (and_iff_right hkind)

theorem Ledger.Represents.current_eq (hl : l.Represents m t) {f : OpenFile} (hf : f.Current m)
    (hs : Regular m (Word.wide f.sector)) :
    l.files (Word.wide f.sector) = some (f.header.contents m) := by
  rw [hl.file_eq hs, ← hf.header_eq]

theorem Ledger.Represents.read (hl : l.Represents m t) {id : Int32} {f : OpenFile}
    (hfind : t.find? id = some f) (hf : f.Current m) {buffer : Array UInt8} {k : Nat}
    (hk : k = min (f.position + buffer.size) f.length - f.position) :
    ∃ l', l.Step m (.read id buffer) (.read k (Bytes.overlay buffer 0
        ((f.header.contents m).extract f.position (f.position + buffer.size)))) l' ∧
      l'.Represents m (t.replace id (f.seek (f.position + k))) := by
  have hposition : f.position ≤ f.header.length := hf.position_le
  have hlength : f.length = f.header.length := rfl
  refine ⟨l.setHandle id (some (Word.wide f.sector, f.position + k)), ?_,
    hl.setHandle (f := some (f.seek (f.position + k))) fun j => ?_⟩
  · by_cases hregular : Regular m (Word.wide f.sector)
    · have hk' : k = min buffer.size ((f.header.contents m).size - f.position) := by
        rw [Header.size_contents]
        omega
      rw [← Bytes.extract_min, ← hk']
      exact .read (hl.handle_eq hfind) (hl.current_eq hf hregular)
        (by rwa [Header.size_contents]) hk'
    · exact .readDirectory (hl.handle_eq hfind) (hl.file_eq_none hregular)
  · rw [OpenTable.find?_replace, hfind]
    rfl

theorem Ledger.Represents.written (hl : l.Represents m t) (hc : Consistent m count) {id : Int32}
    {f : OpenFile} (hfind : t.find? id = some f) (hf : f.Current m)
    (hregular : Regular m (Word.wide f.sector)) {data : Array UInt8} {k : Nat}
    (hk : k = min (f.position + data.size) f.length - f.position) :
    ∃ l', l.Step m (.write id data) (.written k) l' ∧
      l'.Represents ((f.header.writeScript m f.position data).medium m)
        (t.replace id (f.seek (f.position + k))) := by
  have hposition : f.position ≤ f.header.length := hf.position_le
  have hlength : f.length = f.header.length := rfl
  have hk' : k = min data.size ((f.header.contents m).size - f.position) := by
    rw [Header.size_contents]
    omega
  have hwrite := hl.write hc hf hregular data
  rw [← Bytes.overlay_extract, ← hk'] at hwrite
  refine ⟨_, .written (hl.handle_eq hfind) (hl.current_eq hf hregular)
    (by rwa [Header.size_contents]) hk',
    hwrite.setHandle (f := some (f.seek (f.position + k))) fun j => ?_⟩
  rw [OpenTable.find?_replace, hfind]
  rfl

theorem Ledger.Represents.created (hl : l.Represents m t) (hs : Sound m count t) {path : String}
    {size : Nat} {c : Creation} (hserves : c.Serves m count path size .file) :
    ∃ l', l.Step m (.create path size) .done l' ∧ l'.Represents (c.after m count) t := by
  have hc := hs.consistent
  have hv := hserves.valid
  have hheader := (Creation.facts_of_held hv (Creation.held_after hc hv)).1
  have hnot (o : Owner) : ¬ Names m o c.sector := fun h =>
    Creation.not_owns_of_drawn hc hv (List.mem_cons_self ..) o .header (owns_header h)
  refine ⟨_, .created (hl.file_eq_none fun h => ?_) ?_ fun id p h => ?_,
    hl.create hc hv hserves.kind_eq⟩
  · obtain ⟨d, i, h⟩ := h.exists_names
    exact hnot _ h
  · rw [Header.size_contents, hheader, Creation.header, hv.fits.length_planned, hserves.size_eq]
  · rw [hl.handles, Option.map_eq_some_iff] at h
    obtain ⟨f, hf, h⟩ := h
    obtain ⟨d, i, hnames⟩ := (hs.current id f hf).named
    rw [(Prod.mk.inj h).1] at hnames
    exact hnot _ hnames

/-- Whatever a request does to a file system is a step of its ledger. -/
theorem Outcome.ledger_step (ho : Outcome m count t r response m' t') (hs : Sound m count t)
    (hr : r.Admissible m t) (hl : l.Represents m t) :
    ∃ l', l.Step m r response l' ∧ l'.Represents m' t' := by
  have hc := hs.consistent
  cases ho with
  | failed hr => exact ⟨l, .failed hr, hl⟩
  | overlong hbytes hr => exact ⟨l, .overlong hbytes hr, hl⟩
  | created hserves => exact hl.created hs hserves
  | @createdDirectory _ c hserves =>
    have hv := hserves.valid
    refine ⟨l, .createdDirectory, hl.congr (fun s => ?_) fun s hs =>
      (Creation.rewritten_after hc hv).contents_eq hc hv.parent hs⟩
    rw [Creation.regular_after hc hv, hserves.kind_eq]
    simp
  | @removed _ r hserves =>
    have hv := hserves.valid
    obtain ⟨name, hleads, hfind⟩ := hserves.leads
    exact ⟨_, .removed ⟨_, name, _, hleads, hfind, rfl⟩, hl.forget hs.distinct
      (fun s => Removal.regular_after hc hv) fun s hs =>
        (Removal.rewritten_after hc hv).contents_eq hc hv.parent hs⟩
  | openedNone => exact ⟨l, .openedNone, hl⟩
  | @opened _ _ id _ _ e hleads hfind hid =>
    exact ⟨_, .opened ⟨_, _, _, hleads, hfind, rfl⟩
      (hl.handle_eq_none (OpenTable.find?_of_pick? hid)),
      hl.setHandle (f := some (.opened m e.sector)) fun j => OpenTable.find?_insert⟩
  | closed hf =>
    exact ⟨_, .closed (hl.handle_eq hf),
      hl.setHandle (f := none) fun j => OpenTable.find?_erase⟩
  | readUnknown hid => exact ⟨l, .readUnknown (hl.handle_eq_none hid), hl⟩
  | read hf hk => exact hl.read hf (hs.current _ _ hf) hk
  | writtenUnknown hid => exact ⟨l, .writtenUnknown (hl.handle_eq_none hid), hl⟩
  | written hf hk => exact hl.written hc hf (hs.current _ _ hf) (hr _ hf) hk
  | listed hr => exact ⟨l, .listed hr, hl⟩
  | remounted => exact ⟨_, .remounted, hl.closeAll⟩

end

/-! ## Runs -/

/--
The answers to requests in a row are those of the ledger, and it goes on having what the files hold.
-/
inductive Ledger.Explains : Ledger → FileSystem → List Request → Prop
  | nil {l fs} (hl : l.Represents fs.disk.medium fs.opened) : Explains l fs []
  | cons {l l' fs r rest} (hl : l.Represents fs.disk.medium fs.opened)
      (hstep : l.Step fs.disk.medium r (r.perform fs).1 l')
      (hrest : Explains l' (r.perform fs).2 rest) : Explains l fs (r :: rest)

/-- A ledger that has what the files hold explains whatever is done to them. -/
theorem FileSystem.Healthy.explains {fs : FileSystem} (hfs : fs.Healthy) {l : Ledger}
    (hl : l.Represents fs.disk.medium fs.opened) {rs : List Request} (hrs : fs.Admits rs) :
    l.Explains fs rs := by
  induction rs generalizing fs l with
  | nil => exact .nil hl
  | cons r rest ih =>
    obtain ⟨hr, hrest⟩ := hrs
    obtain ⟨m', t', q, -, ho, hresult⟩ := hfs.hasOutcome r
    obtain ⟨l', hstep, hl'⟩ := ho.ledger_step hfs.sound hr hl
    refine .cons hl hstep (ih (hfs.step r hr) ?_ hrest)
    rw [hresult]
    exact hl'

theorem Ledger.represents_empty {m : Medium} {count : Nat} (hv : Formatting.Valid count) :
    Ledger.empty.Represents (Formatting.after m count) {} where
  files s bytes := by
    refine ⟨nofun, ?_⟩
    rintro ⟨⟨d, i, e, hd, hi, -⟩, -⟩
    rw [(Formatting.reached_after hv).mp hd, Formatting.slot?_after hv] at hi
    cases hi
  handles _ := rfl

/--
**Files are byte arrays.** Whatever is done to a new volume, with writes through ids of regular
files, the answers are those of a ledger that starts with no files. In the ledger a file has one
array of the size that it was made with. A transfer moves bytes between that array and the caller
and moves the position of one id on, and nothing else touches the array until the file is removed.
-/
theorem explained_of_format {disk : Disk} {fs : FileSystem} (hfaults : disk.faults.Faultless)
    (hmedium : sectorSize * disk.count ≤ disk.medium.size)
    (hformat : FileSystem.format disk = .ok fs) {rs : List Request} (hrs : fs.Admits rs) :
    Ledger.empty.Explains fs rs := by
  obtain ⟨hv, q, -, rfl⟩ := FileSystem.eq_of_format hfaults hmedium hformat
  exact (FileSystem.Healthy.of_format hfaults hmedium hformat).explains
    (Ledger.represents_empty hv) hrs

/-- A file with two ids: what is written through one of them is read through the other. -/
theorem explained_of_format_two : ∃ disk fs, disk.faults.Faultless ∧
    sectorSize * disk.count ≤ disk.medium.size ∧ FileSystem.format disk = .ok fs ∧
    fs.Admits [.create "/a" 200, .openFile "/a" [7], .openFile "/a" [7, 8],
      .write 7 (.replicate 150 1), .read 8 (.replicate 300 0), .remove "/a"] ∧
    Ledger.empty.Explains fs [.create "/a" 200, .openFile "/a" [7], .openFile "/a" [7, 8],
      .write 7 (.replicate 150 1), .read 8 (.replicate 300 0), .remove "/a"] := by
  obtain ⟨m, p, q, hp, hsize, -, hformat⟩ := FileSystem.exists_format_sixteen
  have hfs : FileSystem.Healthy _ := .of_format hp hsize hformat
  have hrs := hfs.admits_of_flat (Formatting.flat_after Formatting.valid_sixteen)
    [.create "/a" 200, .openFile "/a" [7], .openFile "/a" [7, 8],
      .write 7 (.replicate 150 1), .read 8 (.replicate 300 0), .remove "/a"] (by simp)
  exact ⟨⟨m, 16, p⟩, _, hp, hsize, hformat, hrs, explained_of_format hp hsize hformat hrs⟩

end IndexedDisk
