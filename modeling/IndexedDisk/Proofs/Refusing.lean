import IndexedDisk.Proofs.Requests

/-!
# Requests that are refused

A request is refused because of what was asked for, or because the disk failed. Whatever the disk
holds and whatever faults it shows, a request of the first kind is refused before it writes
anything (`refused_before_writing`).

* `ReadsOnly.careful`, `Careful.bind`: a request that looks at all that can refuse it, and then only
  makes transfers (`Sturdy`), is `Careful`.
* `Supply.Needs`: the space that is counted before an allocation covers every draw in it, also when
  the map has bits set past its last sector. Once a block is written only the disk stops it.
-/

namespace IndexedDisk

/-- What was asked for is refused, and not the disk to blame. -/
def Refusal.Logical (cause : Refusal) : Prop := ∀ e, cause ≠ .device e

/-- The disk once `n` reads were tried and nothing else. -/
def Disk.afterReads (disk : Disk) (n : Nat) : Disk :=
  { disk with faults := disk.faults.afterReads n }

/-- The file system once `n` reads of its disk were tried and nothing else. -/
def FileSystem.afterReads (fs : FileSystem) (n : Nat) : FileSystem :=
  { fs with disk := fs.disk.afterReads n }

/-- Only the disk refuses the request. -/
def Sturdy {α : Type} (act : DiskM α) : Prop :=
  ∀ disk cause disk', act disk = .error (.refused cause) disk' → ¬ cause.Logical

/-- What the request is refused for, if it is not for the disk, is found before the first write. -/
def Careful {α : Type} (act : DiskM α) : Prop :=
  ∀ disk cause disk', cause.Logical → act disk = .error (.refused cause) disk' →
    ∃ n, disk' = disk.afterReads n

/-! ## Requests that only the disk refuses -/

namespace Sturdy

variable {α β : Type} {act : DiskM α}

theorem pure (a : α) : Sturdy (Pure.pure a) := nofun

theorem of_except (x : Except Breach α) : Sturdy (liftM x : DiskM α) := by
  cases x with
  | ok a => exact pure a
  | error cause => exact nofun

theorem bind {f : α → DiskM β} (h : Sturdy act) (hf : ∀ a, Sturdy (f a)) : Sturdy (act >>= f) := by
  intro disk cause disk' hact
  rw [bind_apply] at hact
  cases hfirst : act disk with
  | ok a disk₁ =>
    rw [hfirst] at hact
    exact hf a disk₁ cause disk' hact
  | error e disk₁ =>
    rw [hfirst] at hact
    cases hact
    exact h disk cause disk' hfirst

theorem map {f : α → β} (h : Sturdy act) : Sturdy (do return f (← act)) := h.bind fun _ => pure _

theorem readSector (s : Nat) : Sturdy (Disk.readSector s) := by
  rintro ⟨m, count, p⟩ cause disk' hact hlogical
  rw [Disk.readSector_apply] at hact
  split at hact
  · cases hact
  · cases hact
    exact hlogical _ rfl

theorem writeSector (s : Nat) (bytes : Sector) : Sturdy (Disk.writeSector s bytes) := by
  rintro ⟨m, count, p⟩ cause disk' hact hlogical
  rw [Disk.writeSector_apply] at hact
  split at hact
  · cases hact
  · cases hact
    exact hlogical _ rfl

end Sturdy

theorem Header.sturdy_fetch (p : Int32) : Sturdy (fetch p) := (Sturdy.readSector _).map

theorem Header.sturdy_store (h : Header) (p : Int32) : Sturdy (h.store p) := Sturdy.writeSector _ _

theorem IndexBlock.sturdy_fetch (p : Int32) : Sturdy (fetch p) := (Sturdy.readSector _).map

theorem Header.sturdy_follow (place : Place) : Sturdy (follow place) := by
  cases place with
  | direct sector => exact Sturdy.pure sector
  | single block index => exact (IndexBlock.sturdy_fetch block).bind fun b => Sturdy.of_except _
  | double block child index =>
    exact (IndexBlock.sturdy_fetch block).bind fun b => (Sturdy.of_except _).bind fun p =>
      (IndexBlock.sturdy_fetch p).bind fun c => Sturdy.of_except _

theorem Header.sturdy_sectorOf (h : Header) {offset : Nat} (hoffset : offset < h.length) :
    Sturdy (h.sectorOf offset) := by
  rw [sectorOf, if_neg (Nat.not_le.mpr hoffset)]
  exact Header.sturdy_follow _

namespace OpenFile

theorem sturdy_openAt (p : Int32) : Sturdy (openAt p) := (Header.sturdy_fetch p).map

theorem sturdy_writeSpan (f : OpenFile) (position : Nat) (data : Array UInt8) {span : Span}
    (hspan : span.offset < f.length) : Sturdy (f.writeSpan position data span) := by
  unfold writeSpan
  refine (f.header.sturdy_sectorOf hspan).bind fun sector => ?_
  dsimp only
  split
  · exact (Sturdy.readSector _).bind fun base => Sturdy.writeSector _ _
  · exact (Sturdy.pure _).bind fun base => Sturdy.writeSector _ _

theorem sturdy_writeSpans (f : OpenFile) (position : Nat) (data : Array UInt8) {spans : List Span}
    (hspans : ∀ span ∈ spans, span.offset < f.length) :
    Sturdy (f.writeSpans position data spans) := by
  induction spans with
  | nil => exact Sturdy.pure ()
  | cons span rest ih =>
    obtain ⟨hspan, hrest⟩ := List.forall_mem_cons.mp hspans
    exact (f.sturdy_writeSpan position data hspan).bind fun _ => ih hrest

/-- The spans of a write lie in the file, so that none of them is refused. -/
theorem sturdy_writeAt (f : OpenFile) (position : Nat) (data : Array UInt8) :
    Sturdy (f.writeAt position data) := by
  unfold writeAt
  split
  · exact Sturdy.pure 0
  · cases hstop : f.stop position data.size with
    | error cause => exact fun _ _ _ => nofun
    | ok stop =>
      have hle : stop ≤ f.length := by
        unfold OpenFile.stop at hstop
        split at hstop
        · cases hstop
          exact Nat.min_le_right ..
        · cases hstop
      refine (f.sturdy_writeSpans position data fun span hspan => ?_).map
      have := bounds_of_mem_spans hspan
      omega

theorem sturdy_write (f : OpenFile) (data : Array UInt8) : Sturdy (f.write data) :=
  (f.sturdy_writeAt f.position data).map

end OpenFile

theorem Directory.sturdy_store (d : Directory) (f : OpenFile) : Sturdy (d.store f) :=
  (f.sturdy_writeAt 0 d.image).map

theorem SectorMap.sturdy_store (map : SectorMap) (f : OpenFile) : Sturdy (map.store f) :=
  (f.sturdy_writeAt 0 map.image).map

theorem Volume.sturdy_storeBlank (sector : Int32) : Sturdy (storeBlank sector) :=
  (OpenFile.sturdy_openAt sector).bind fun f => Directory.sturdy_store _ f

/-! ## The space for an allocation -/

namespace Supply

/-- With `n` free sectors only the disk stops the request, and it takes no more than these. -/
def Needs {α : Type} (n : Nat) (act : SupplyM α) : Prop :=
  ∀ disk s, n ≤ s.map.free.length → match act ⟨disk, s⟩ with
    | .ok _ held => s.map.free.length ≤ held.value.map.free.length + n
    | .error cause _ => ∃ e, cause = .refused (.device e)

namespace Needs

variable {α β : Type} {act : SupplyM α} {n k : Nat}

theorem pure (a : α) : Needs 0 (pure a) := fun _ _ _ => Nat.le_refl _

theorem bind {f : α → SupplyM β} (h : Needs n act) (hf : ∀ a, Needs k (f a)) :
    Needs (n + k) (act >>= f) := by
  intro disk s hs
  have hact := h disk s (by omega)
  rw [bind_apply]
  cases hfirst : act ⟨disk, s⟩ with
  | error cause held =>
    rw [hfirst] at hact
    exact hact
  | ok a held =>
    obtain ⟨disk', s'⟩ := held
    rw [hfirst] at hact
    have hleft : s.map.free.length ≤ s'.map.free.length + n := hact
    have hrest := hf a disk' s' (by omega)
    dsimp only
    cases hsecond : f a ⟨disk', s'⟩ with
    | error cause held =>
      rw [hsecond] at hrest
      exact hrest
    | ok b held =>
      rw [hsecond] at hrest
      exact Nat.le_trans hleft (by dsimp only at hrest; omega)

theorem map {f : α → β} (h : Needs n act) : Needs n (do return f (← act)) :=
  h.bind fun _ => pure _

theorem draw : Needs 1 Supply.draw := by
  rintro disk ⟨map, drawn⟩ (hs : 1 ≤ map.free.length)
  obtain ⟨i, rest, hfree⟩ := List.exists_cons_of_length_pos hs
  simp only [Supply.draw, SectorMap.take_eq hfree, SectorMap.free_setBit hfree, hfree,
    List.length_cons, Nat.le_refl]

theorem drawMany (n : Nat) : Needs n (Supply.drawMany n) := by
  induction n with
  | zero => exact pure _
  | succ n ih =>
    have h : Needs (1 + n) (Supply.drawMany (n + 1)) := draw.bind fun _ => ih.map
    rwa [Nat.add_comm] at h

theorem store (b : IndexBlock) (p : Int32) : Needs 0 (liftM (b.store p)) := by
  rintro ⟨m, count, plan⟩ s hs
  simp only [liftM, monadLift, MonadLift.monadLift, IndexBlock.store, Disk.writeSector_apply]
  cases (⟨m, count, plan⟩ : Disk).writeError? (Word.wide p) sectorSize with
  | none => exact Nat.le_refl _
  | some e => exact ⟨e, rfl⟩

theorem fillBlock (p : Int32) (n : Nat) : Needs n (Supply.fillBlock p n) :=
  (drawMany n).bind fun _ => store _ p

theorem fillSingle (n : Nat) : Needs (1 + n) (Supply.fillSingle n) :=
  draw.bind fun block => (fillBlock block n).map

/-- The children of the double block are as many as were counted, so that it names them all. -/
theorem fillChildren (size : Nat) {rest named : Nat}
    (hnamed : named + Header.childCount rest ≤ blockPointers) :
    Needs (rest + Header.childCount rest) (Supply.fillChildren size rest named) := by
  fun_induction Supply.fillChildren size rest named with
  | case1 => exact pure _
  | case2 rest hrest =>
    simp only [Header.childCount, blockPointers] at hnamed
    omega
  | case3 rest named hrest _ ih =>
    have hcount : Header.childCount rest
        = 1 + Header.childCount (rest - min rest blockPointers) := by
      simp only [Header.childCount, blockPointers]
      omega
    have hsum : rest + Header.childCount rest = 1 + (min rest blockPointers
        + (rest - min rest blockPointers
          + Header.childCount (rest - min rest blockPointers))) := by
      omega
    rw [hsum]
    exact draw.bind fun child => (fillBlock child _).bind fun _ => (ih (by omega)).map

theorem fillDouble (size : Nat) {n : Nat} (hn : Header.childCount n ≤ blockPointers) :
    Needs (1 + (n + Header.childCount n)) (Supply.fillDouble size n) :=
  draw.bind fun block => (fillChildren size (by omega)).bind fun children =>
    (store _ block).map

theorem singleTier (n : Nat) :
    Needs (Header.singleRoom n) (if n - directPointers = 0 then Pure.pure noSector
      else Supply.fillSingle (min (n - directPointers) blockPointers)) := by
  unfold Header.singleRoom
  by_cases hs : n ≤ directPointers
  · rw [if_pos hs, if_pos (Nat.sub_eq_zero_of_le hs)]
    exact pure _
  · rw [if_neg hs, if_neg (by omega), Nat.add_comm]
    exact fillSingle _

theorem doubleTier (size : Nat) {n : Nat} (hn : n ≤ maxFileSectors) :
    Needs (Header.doubleRoom n) (if n - directPointers < blockPointers then Pure.pure noSector
      else Supply.fillDouble size (n - directPointers - blockPointers)) := by
  unfold Header.doubleRoom
  by_cases hd : n < directPointers + blockPointers
  · rw [if_pos hd, if_pos (by simp only [directPointers, blockPointers] at *; omega)]
    exact pure _
  · have hchildren : Header.childCount (n - directPointers - blockPointers) ≤ blockPointers := by
      simp only [Header.childCount, maxFileSectors, directPointers, blockPointers] at *
      omega
    rw [if_neg hd, if_neg (by omega), Nat.add_right_comm, Nat.add_comm]
    exact fillDouble size hchildren

theorem fill {size : Nat} (hsize : size ≤ maxFileSize) :
    Needs (sectorsFor size + indexBlocksFor (sectorsFor size)) (Supply.fill size) := by
  have hn : sectorsFor size ≤ maxFileSectors := by
    simp only [sectorsFor, maxFileSize, maxFileSectors, sectorSize, directPointers,
      blockPointers] at *
    omega
  rw [Supply.fill_eq, ← Header.sum_rooms, Nat.add_assoc]
  exact (drawMany _).bind fun _ => (singleTier _).bind fun _ => (doubleTier size hn).map

end Needs

/-- Once the free sectors are counted, an allocation runs out of neither sectors nor pointers. -/
theorem device_of_fill {map : SectorMap} {size free : Nat} (hsize : size ≤ maxFileSize)
    (hcount : map.freeCount = .ok free)
    (hfree : sectorsFor size + indexBlocksFor (sectorsFor size) ≤ free) {disk : Disk}
    {cause : Failure} {held : Disk.With Supply}
    (h : Supply.fill size ⟨disk, map, []⟩ = .error cause held) :
    ∃ e, cause = .refused (.device e) := by
  have hneeds := Needs.fill hsize disk ⟨map, []⟩
    (Nat.le_trans hfree (SectorMap.le_length_free hcount))
  rw [h] at hneeds
  exact hneeds

end Supply

/-! ## Requests that look before they write -/

theorem ReadsOnly.careful {α : Type} {act : DiskM α} (h : ReadsOnly act) : Careful act := by
  rintro ⟨m, count, p⟩ cause disk' - hact
  obtain ⟨result, n, heq⟩ := h m count p
  rw [heq] at hact
  cases result with
  | ok a => cases hact
  | error cause =>
    cases hact
    exact ⟨n, rfl⟩

theorem Sturdy.careful {α : Type} {act : DiskM α} (h : Sturdy act) : Careful act :=
  fun disk cause disk' hlogical hact => absurd hlogical (h disk cause disk' hact)

theorem ReadsOnly.bind_careful {α β : Type} {act : DiskM α} {f : α → DiskM β} (h : ReadsOnly act)
    (hf : ∀ a, Careful (f a)) : Careful (act >>= f) := by
  rintro ⟨m, count, p⟩ cause disk' hlogical hact
  obtain ⟨result, n, heq⟩ := h m count p
  rw [bind_apply, heq] at hact
  cases result with
  | ok a =>
    obtain ⟨k, rfl⟩ := hf a _ cause disk' hlogical hact
    exact ⟨n + k, congrArg (Disk.mk m count) (p.afterReads_afterReads n k)⟩
  | error cause =>
    cases hact
    exact ⟨n, rfl⟩

theorem Careful.bind {α β : Type} {act : DiskM α} {f : α → DiskM β} (h : Careful act)
    (hf : ∀ a, Sturdy (f a)) : Careful (act >>= f) := by
  intro disk cause disk' hlogical hact
  rw [bind_apply] at hact
  cases hfirst : act disk with
  | ok a disk₁ =>
    rw [hfirst] at hact
    exact absurd hlogical (hf a disk₁ cause disk' hact)
  | error e disk₁ =>
    rw [hfirst] at hact
    cases hact
    exact h disk cause disk' hlogical hfirst

theorem Header.careful_allocate (size : Nat) (held : Holding) :
    Careful (Disk.runOn held (allocate size)) := by
  obtain ⟨map, h⟩ := held
  intro disk cause disk' hlogical hact
  simp only [Disk.runOn, allocate] at hact
  by_cases hsize : maxFileSize < size
  · rw [if_pos hsize] at hact
    cases hact
    exact ⟨0, rfl⟩
  rw [if_neg hsize] at hact
  cases hcount : map.freeCount with
  | error breach =>
    rw [hcount] at hact
    cases hact
  | ok free =>
    rw [hcount] at hact
    dsimp only at hact
    by_cases hfree : free < sectorsFor size + indexBlocksFor (sectorsFor size)
    · rw [if_pos hfree] at hact
      cases hact
      exact ⟨0, rfl⟩
    rw [if_neg hfree] at hact
    cases hfill : Supply.fill size ⟨disk, map, []⟩ with
    | ok header held =>
      rw [hfill] at hact
      cases hact
    | error cause' held =>
      obtain ⟨e, rfl⟩ := Supply.device_of_fill (Nat.le_of_not_lt hsize) hcount
        (Nat.le_of_not_lt hfree) hfill
      obtain ⟨disk₁, map₁, drawn⟩ := held
      rw [hfill] at hact
      dsimp only at hact
      cases hrelease : map₁.releaseAll drawn with
      | ok map₂ =>
        rw [hrelease] at hact
        cases hact
        exact absurd rfl (hlogical e)
      | error breach =>
        rw [hrelease] at hact
        cases hact

namespace Header

theorem readsOnly_giveBack (p : Int32) (held : Holding) :
    ReadsOnly (Disk.runOn held (giveBack p)) := by
  obtain ⟨map, h⟩ := held
  intro m count plan
  simp only [Disk.runOn, giveBack]
  cases map.release (Word.wide p) with
  | ok map => exact ⟨.ok _, 0, rfl⟩
  | error cause => exact ⟨.error _, 0, rfl⟩

theorem readsOnly_giveBackAll (ps : List Int32) (held : Holding) :
    ReadsOnly (Disk.runOn held (giveBackAll ps)) := by
  induction ps generalizing held with
  | nil => exact ReadsOnly.runOn_pure () held
  | cons p ps ih => exact ReadsOnly.runOn_bind (readsOnly_giveBack p held) fun _ held => ih held

theorem readsOnly_giveBackBlock (p : Int32) (held : Holding) :
    ReadsOnly (Disk.runOn held (giveBackBlock p)) :=
  ReadsOnly.runOn_bind ((IndexBlock.readsOnly_entriesAt p).runOn_lift held) fun _ held =>
    ReadsOnly.runOn_bind (readsOnly_giveBackAll _ held) fun _ held => readsOnly_giveBack p held

theorem readsOnly_giveBackBlocks (ps : List Int32) (held : Holding) :
    ReadsOnly (Disk.runOn held (giveBackBlocks ps)) := by
  induction ps generalizing held with
  | nil => exact ReadsOnly.runOn_pure () held
  | cons p ps ih =>
    exact ReadsOnly.runOn_bind (readsOnly_giveBackBlock p held) fun _ held => ih held

theorem readsOnly_current (held : Holding) : ReadsOnly (Disk.runOn held current) :=
  fun _ _ _ => ⟨.ok _, 0, rfl⟩

theorem readsOnly_amend (f : Header → Header) (held : Holding) :
    ReadsOnly (Disk.runOn held (amend f)) :=
  fun _ _ _ => ⟨.ok _, 0, rfl⟩

theorem readsOnly_releaseSingle (held : Holding) : ReadsOnly (Disk.runOn held releaseSingle) := by
  refine ReadsOnly.runOn_bind (readsOnly_current held) fun h held => ?_
  split
  · exact ReadsOnly.runOn_pure () held
  · exact ReadsOnly.runOn_bind (readsOnly_giveBackBlock _ held) fun _ held =>
      readsOnly_amend _ held

theorem readsOnly_releaseDouble (held : Holding) : ReadsOnly (Disk.runOn held releaseDouble) := by
  refine ReadsOnly.runOn_bind (readsOnly_current held) fun h held => ?_
  split
  · exact ReadsOnly.runOn_pure () held
  · exact ReadsOnly.runOn_bind ((IndexBlock.readsOnly_entriesAt _).runOn_lift held) fun _ held =>
      ReadsOnly.runOn_bind (readsOnly_giveBackBlocks _ held) fun _ held =>
        ReadsOnly.runOn_bind (readsOnly_giveBack _ held) fun _ held => readsOnly_amend _ held

theorem readsOnly_deallocate (held : Holding) : ReadsOnly (Disk.runOn held deallocate) :=
  ReadsOnly.runOn_bind (readsOnly_current held) fun _ held =>
    ReadsOnly.runOn_bind (readsOnly_giveBackAll _ held) fun _ held =>
      ReadsOnly.runOn_bind (readsOnly_releaseSingle held) fun _ held => readsOnly_releaseDouble held

end Header

namespace Volume

variable (v : Volume) (path : String)

theorem readsOnly_drawHeader (map : SectorMap) : ReadsOnly (drawHeader map) := by
  unfold drawHeader
  cases map.take with
  | some drawn => exact ReadsOnly.pure drawn
  | none => exact ReadsOnly.refuse _

theorem readsOnly_isEmptyAt (p : Int32) : ReadsOnly (isEmptyAt p) :=
  (Directory.readsOnly_openAt p).map

theorem readsOnly_freeFile (map : SectorMap) (h : Header) (sector : Int32) :
    ReadsOnly (freeFile map h sector) :=
  (Header.readsOnly_deallocate _).bind fun _ => ReadsOnly.of_except _

theorem careful_newHeader (map : SectorMap) (size : Nat) : Careful (newHeader map size) :=
  (Header.careful_allocate size _).bind fun _ => Sturdy.pure _

/-- A new file is refused before its first index block is written. -/
theorem careful_createEntry (size : Nat) (kind : EntryKind) :
    Careful (v.createEntry path size kind) := by
  refine (ReadsOnly.of_except_refusal _).bind_careful fun ⟨parents, name⟩ => ?_
  refine (Directory.readsOnly_resolve v.rootFile parents).bind_careful fun ⟨file, d⟩ => ?_
  dsimp only
  split
  · exact (ReadsOnly.refuse _).careful
  · refine v.readsOnly_fetchMap.bind_careful fun map => ?_
    refine (readsOnly_drawHeader map).bind_careful fun ⟨drawn, map⟩ => ?_
    refine (ReadsOnly.of_except_refusal _).bind_careful fun d => ?_
    refine (careful_newHeader map size).bind fun ⟨map, header⟩ => ?_
    refine (header.sturdy_store _).bind fun _ => ?_
    have hrest : Sturdy (do d.store file; map.store v.mapFile; return Word.ofNat drawn) :=
      (d.sturdy_store file).bind fun _ => (map.sturdy_store v.mapFile).map
    dsimp only
    split
    · exact (sturdy_storeBlank _).bind fun _ => hrest
    · exact (Sturdy.pure ()).bind fun _ => hrest

theorem careful_create (size : Nat) : Careful (v.create path size) :=
  (v.careful_createEntry path size .file).bind fun _ => Sturdy.pure _

theorem careful_createDirectory : Careful (v.createDirectory path) := by
  unfold createDirectory
  split
  · exact (v.careful_createEntry path directoryFileSize .directory).bind fun _ => Sturdy.pure _
  · exact (ReadsOnly.refuse _).careful

/-- A removal is refused before the map is written. -/
theorem careful_remove : Careful (v.remove path) := by
  refine (ReadsOnly.of_except_refusal _).bind_careful fun ⟨parents, name⟩ => ?_
  refine (Directory.readsOnly_resolve v.rootFile parents).bind_careful fun ⟨file, d⟩ => ?_
  dsimp only
  cases d.find? name with
  | none => exact (ReadsOnly.refuse _).careful
  | some e =>
    dsimp only
    refine (Header.readsOnly_fetch e.sector).bind_careful fun header => ?_
    have hremove (removable : Bool) : Careful (if removable then do
          let map ← v.fetchMap
          let map ← freeFile map header e.sector
          let d ← d.remove name
          map.store v.mapFile
          d.store file
          return e.sector
        else refuse (.directoryNotEmpty path)) := by
      split
      · refine v.readsOnly_fetchMap.bind_careful fun map => ?_
        refine (readsOnly_freeFile map header e.sector).bind_careful fun map => ?_
        refine (ReadsOnly.of_except_refusal _).bind_careful fun d => ?_
        exact ((map.sturdy_store v.mapFile).bind fun _ => (d.sturdy_store file).map).careful
      · exact (ReadsOnly.refuse _).careful
    split
    · exact (readsOnly_isEmptyAt e.sector).bind_careful hremove
    · exact (ReadsOnly.pure true).bind_careful hremove

end Volume

/-! ## Requests to a file system -/

namespace Careful

variable {α β : Type} {act : DiskM α} (h : Careful act) {fs fs' : FileSystem} {cause : Refusal}
  (hlogical : cause.Logical)
include h hlogical

theorem exists_afterReads (hact : (liftM act : FileSystemM α) fs = .error (.refused cause) fs') :
    ∃ n, fs' = fs.afterReads n := by
  obtain ⟨disk', hfirst, rfl⟩ := FileSystem.exists_of_lift_error hact
  obtain ⟨n, rfl⟩ := h fs.disk cause disk' hlogical hfirst
  exact ⟨n, rfl⟩

theorem exists_afterReads_bind {g : α → FileSystemM β}
    (hg : ∀ a fs, ∃ b fs', g a fs = .ok b fs')
    (hact : (liftM act >>= g : FileSystemM β) fs = .error (.refused cause) fs') :
    ∃ n, fs' = fs.afterReads n := by
  obtain ⟨disk', hfirst, rfl⟩ := FileSystem.exists_of_lift_bind_error hg hact
  obtain ⟨n, rfl⟩ := h fs.disk cause disk' hlogical hfirst
  exact ⟨n, rfl⟩

theorem respond {f : α → Response} {act' : FileSystemM α}
    (hact' : act' fs = (liftM act : FileSystemM α) fs) (hf : ∀ a cause, f a ≠ .failed cause)
    (hresponse : (Request.respond f act' fs).1 = .failed (.refused cause)) :
    ∃ n, (Request.respond f act' fs).2 = fs.afterReads n :=
  h.exists_afterReads hlogical (hact'.symm.trans (Request.eq_error_of_respond hf hresponse))

theorem respond_bind {f : β → Response} {act' : FileSystemM β} {g : α → FileSystemM β}
    (hact' : act' fs = (liftM act >>= g : FileSystemM β) fs)
    (hg : ∀ a fs, ∃ b fs', g a fs = .ok b fs') (hf : ∀ b cause, f b ≠ .failed cause)
    (hresponse : (Request.respond f act' fs).1 = .failed (.refused cause)) :
    ∃ n, (Request.respond f act' fs).2 = fs.afterReads n :=
  h.exists_afterReads_bind hlogical hg
    (hact'.symm.trans (Request.eq_error_of_respond hf hresponse))

end Careful

theorem Request.exists_afterReads {fs : FileSystem} {r : Request} (hr : ¬ r matches .remount)
    {cause : Refusal} (hlogical : cause.Logical)
    (h : (r.perform fs).1 = .failed (.refused cause)) :
    ∃ n, (r.perform fs).2 = fs.afterReads n := by
  obtain ⟨disk, v, t⟩ := fs
  cases r with
  | create path size =>
    exact (v.careful_create path size).respond hlogical
      (FileSystem.getVolume_bind (·.create path size)) (by rintro _ _ ⟨⟩) h
  | createDirectory path =>
    exact (v.careful_createDirectory path).respond hlogical
      (FileSystem.getVolume_bind (·.createDirectory path)) (by rintro _ _ ⟨⟩) h
  | remove path =>
    exact (v.careful_remove path).respond_bind hlogical (FileSystem.remove_eq path)
      (fun _ _ => ⟨_, _, rfl⟩) (by rintro _ _ ⟨⟩) h
  | openFile path draws =>
    refine (v.readsOnly_openPath path).careful.respond_bind hlogical
      (FileSystem.openFile_eq path draws) (fun f fs => ?_) (by rintro _ _ ⟨⟩) h
    obtain ⟨disk, v, t⟩ := fs
    rw [FileSystem.getTable_bind]
    cases t.pick? draws with
    | none => exact ⟨_, _, rfl⟩
    | some id => exact ⟨_, _, rfl⟩
  | close id =>
    cases hfind : t.find? id with
    | none =>
      rw [perform, respond_error (FileSystem.close_eq_unknown hfind)]
      exact ⟨0, rfl⟩
    | some f =>
      rw [perform, respond_ok (FileSystem.close_eq hfind)] at h
      cases h
  | read id buffer =>
    cases hfind : t.find? id with
    | none =>
      rw [perform, respond_ok (FileSystem.read_eq_unknown hfind buffer)] at h
      cases h
    | some f =>
      exact (f.readsOnly_read buffer).careful.respond_bind hlogical
        (FileSystem.read_eq hfind buffer) (fun _ _ => ⟨_, _, rfl⟩) (by rintro _ _ ⟨⟩) h
  | write id data =>
    cases hfind : t.find? id with
    | none =>
      rw [perform, respond_ok (FileSystem.write_eq_unknown hfind data)] at h
      cases h
    | some f =>
      exact (f.sturdy_write data).careful.respond_bind hlogical
        (FileSystem.write_eq hfind data) (fun _ _ => ⟨_, _, rfl⟩) (by rintro _ _ ⟨⟩) h
  | list path =>
    exact (v.readsOnly_list path).careful.respond hlogical
      (FileSystem.getVolume_bind (·.list path)) (by rintro _ _ ⟨⟩) h
  | listTree path =>
    exact (v.readsOnly_listTree path).careful.respond hlogical
      (FileSystem.getVolume_bind (·.listTree path)) (by rintro _ _ ⟨⟩) h
  | freeSectors =>
    exact v.readsOnly_freeSectors.careful.respond hlogical
      (FileSystem.getVolume_bind Volume.freeSectors) (by rintro _ _ ⟨⟩) h
  | remount => exact absurd rfl hr

/--
**A request that is refused has changed nothing.** On any disk, whatever it holds and whatever
faults it shows, a request that is refused for what was asked for and not for the disk has tried
reads and nothing else: the medium is what it was, and so are the volume and the table of open
files. This holds as well when a file is opened without an id. In particular once an allocation has
found the file not too large and the counted sectors enough, it fails by the disk alone: neither
sectors nor pointers run out on the way, whatever bits the map has set past its last sector.
-/
theorem refused_before_writing (fs : FileSystem) :
    (∀ (r : Request) (cause : Refusal), ¬ r matches .remount → cause.Logical →
      (r.perform fs).1 = .failed (.refused cause) → ∃ n, (r.perform fs).2 = fs.afterReads n) ∧
    (∀ path cause fs', cause.Logical →
      FileSystem.openPath path fs = .error (.refused cause) fs' → ∃ n, fs' = fs.afterReads n) ∧
    ∀ (map : SectorMap) size free, size ≤ maxFileSize → map.freeCount = .ok free →
      sectorsFor size + indexBlocksFor (sectorsFor size) ≤ free → ∀ cause held,
      Supply.fill size ⟨fs.disk, map, []⟩ = .error cause held →
        ∃ e, cause = .refused (.device e) := by
  refine ⟨fun r cause hr hlogical h => r.exists_afterReads hr hlogical h,
    fun path cause fs' hlogical hact => ?_,
    fun map size free hsize hcount hfree cause held h =>
      Supply.device_of_fill hsize hcount hfree h⟩
  exact (fs.volume.readsOnly_openPath path).careful.exists_afterReads hlogical hact

/-- The map has a sector 28, but the disk does not. -/
theorem Supply.exists_fill_error (m : Medium) {p : FaultPlan} (hp : p.Faultless) : ∃ cause held,
    Supply.fill 3712 ⟨⟨m, 16, p⟩, .ofImage 39 #[0, 0, 0, 0, 128], []⟩ = .error cause held := by
  have hfree : (SectorMap.ofImage 39 #[0, 0, 0, 0, 128]).free = List.range 39 := by decide
  have hfits : Header.Fits 3712 (SectorMap.ofImage 39 #[0, 0, 0, 0, 128]).free := by
    rw [hfree]
    exact ⟨by decide, by decide, by decide, by decide⟩
  obtain ⟨bytes, hscript⟩ : ∃ bytes, Header.fillScript (sectorsFor 3712)
      (SectorMap.ofImage 39 #[0, 0, 0, 0, 128]).free = [.write 28 bytes] := by
    rw [hfree]
    exact ⟨_, rfl⟩
  have hplay : Script.play [.write 28 bytes] ⟨m, 16, p⟩
      = .error (.refused (.device (.outOfRange 28))) ⟨m, 16, p.afterFailedWrite⟩ := by
    simp [Script.play, Transfer.run, bind_apply, Disk.writeSector_apply, Disk.writeError?,
      hp.writeFails]
  have hfill : Follows m 16 (Disk.runOn ⟨.ofImage 39 #[0, 0, 0, 0, 128], []⟩ (Supply.fill 3712))
      _ _ := Supply.follows_fill hfits.take
  have hrun := hfill p
  rw [hscript, bind_apply, hplay] at hrun
  cases hact : Supply.fill 3712 ⟨⟨m, 16, p⟩, .ofImage 39 #[0, 0, 0, 0, 128], []⟩ with
  | ok h held =>
    simp only [Disk.runOn, hact] at hrun
    cases hrun
  | error cause held => exact ⟨cause, held, rfl⟩

/--
On sixteen sectors a file of ten sectors is refused for want of space, and a path that names no file
is refused at once. An allocation that passed the count is stopped by a disk too short for its
block.
-/
theorem refused_before_writing_sixteen : ∃ fs, Reachable fs ∧
    ((Request.create "/a" 1153).perform fs).1 = .failed (.refused .noSpace) ∧
    (∃ n, ((Request.create "/a" 1153).perform fs).2 = fs.afterReads n) ∧
    (∃ cause fs' n, cause.Logical ∧ FileSystem.openPath "/" fs = .error (.refused cause) fs' ∧
      fs' = fs.afterReads n) ∧
    ∃ (map : SectorMap) (cause : Failure) (held : Disk.With Supply), map.bit 39 = true ∧
      map.freeCount = .ok 38 ∧ Supply.fill 3712 ⟨fs.disk, map, []⟩ = .error cause held ∧
      ∃ e, cause = .refused (.device e) := by
  obtain ⟨m, p, hp, hc, hfs⟩ := exists_reachable_sixteen
  obtain ⟨hrequest, hopen, hfill⟩ := refused_before_writing
    ⟨⟨Formatting.after m 16, 16, p⟩, Volume.on (Formatting.after m 16), {}⟩
  have hplan : Creation.plan (Formatting.after m 16) 16 "/a" 1153 .file = .error .noSpace := by
    rw [Formatting.plan_sixteen_eq m 1153 .file "a" (by decide) (by decide) (by decide),
      if_neg (by decide), if_pos (by decide)]
  obtain ⟨q, -, hrefused⟩ := Request.perform_create_refused (t := {}) hc hp hplan
  have hcreate := congrArg Prod.fst hrefused
  have hpath : FileSystem.openPath "/"
      ⟨⟨Formatting.after m 16, 16, p⟩, Volume.on (Formatting.after m 16), {}⟩
      = .error (.refused (.invalidPath (.noName "/")))
        ⟨⟨Formatting.after m 16, 16, p⟩, Volume.on (Formatting.after m 16), {}⟩ := rfl
  have hlogical : (Refusal.invalidPath (.noName "/")).Logical := nofun
  obtain ⟨n, hn⟩ := hopen "/" _ _ hlogical hpath
  have hcount : (SectorMap.ofImage 39 #[0, 0, 0, 0, 128]).freeCount = .ok 38 := by decide
  obtain ⟨cause, held, hfails⟩ := Supply.exists_fill_error (Formatting.after m 16) hp
  exact ⟨_, hfs, hcreate, hrequest _ .noSpace nofun nofun hcreate,
    ⟨_, _, n, hlogical, hpath, hn⟩, _, cause, held, by decide, hcount, hfails,
    hfill _ 3712 38 (by decide) hcount (by decide) cause held hfails⟩

end IndexedDisk
