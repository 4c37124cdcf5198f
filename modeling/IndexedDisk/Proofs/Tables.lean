import IndexedDisk.Proofs.Stored
import IndexedDisk.Proofs.Transfers

/-!
# Tables and headers on the disk

A directory is kept in a file by its image, in which slot `i` is the 32 bytes from `32 * i` on, and
a header in one sector. The file may end before the image does, or after it, and neither a slot nor
a header need be one that was made here: any bytes are read, and written again as they were.

* `exists_follows_refill`: the slots are filled from the contents of the file, and with zeros past
  their end. Nothing else goes in, least of all the old slots.
* `exists_refill_store`: a directory that was read and is stored again leaves the medium as it was.
* `tables_and_headers_come_back`: directories come back from their files and headers from their
  sectors, and the other way round.
-/

namespace IndexedDisk

namespace Directory

variable {m : Medium} {f : OpenFile} {count : Nat}

theorem getElem?_image_held {h : Header} {size k : Nat} (hk : k < fileSize size) :
    (held m h size).image[k]? = some ((h.contents m).getD k 0) :=
  getElem?_image_ofImage _ hk

theorem size_held (m : Medium) (h : Header) (size : Nat) : (held m h size).size = size :=
  size_ofImage ..

theorem runOn_refill (old : Directory) (f : OpenFile) : Disk.runOn old (refill f) = (do
    let (_, bytes) ← Disk.runOn (Array.replicate (fileSize old.size) 0) (f.readAt 0)
    return ((), ofImage old.size bytes)) := by
  funext disk
  simp only [refill, Disk.runOn, bind_apply]
  cases f.readAt 0 ⟨disk, Array.replicate (fileSize old.size) 0⟩ <;> rfl

/-- Filling a directory reads sectors of the file only, and nothing of the old slots is left. -/
theorem exists_follows_refill (hh : f.header.Intact m) {old : Directory}
    (hroom : fileSize old.size ≤ maxRoom) :
    ∃ sectors ⊆ f.header.data m ++ f.header.index m,
      Follows m count (Disk.runOn old (refill f)) (Script.reads sectors)
        (.ok ((), held m f.header old.size)) := by
  obtain ⟨bytes, hbytes, sectors, hsub, hread⟩ :=
    @Header.exists_follows_readAt_zero m f count hh _ hroom
  refine ⟨sectors, hsub, ?_⟩
  rw [runOn_refill, held, ← ofImage_congr hbytes]
  exact Follows.bind_nil hread (Follows.pure _)

variable {p : FaultPlan} (hh : f.header.Intact m)
  (hread : Disk.Readable ⟨m, count, p⟩ (f.header.data m ++ f.header.index m))
include hh hread

theorem exists_refill {old : Directory} (hroom : fileSize old.size ≤ maxRoom) : ∃ disk',
    Disk.runOn old (refill f) ⟨m, count, p⟩ = .ok ((), held m f.header old.size) disk' ∧
      disk'.medium = m := by
  obtain ⟨sectors, hsectors, hrefill⟩ := @exists_follows_refill m f count hh old hroom
  exact ⟨_, hrefill.eval_of_delivers (hread.delivers hsectors), rfl⟩

variable (hsep : f.header.Separate m)
  (hwrite : Disk.Accepts ⟨m, count, p⟩ (f.header.data m))
include hsep hwrite

theorem exists_store_refill {d old : Directory} (hsize : old.size = d.size)
    (hlen : fileSize d.size ≤ f.header.length) :
    ∃ disk', (do d.store f; Disk.runOn old (refill f)) ⟨m, count, p⟩ = .ok ((), d) disk' ∧
      f.Written 0 d.image ⟨m, count, p⟩ disk' := by
  have hindex := fun s (hs : s ∈ f.header.index m) =>
    Header.index_writeScript 0 d.image hh hsep hs
  have hstore : Follows m count (d.store f) (f.header.writeScript m 0 d.image) (.ok ()) :=
    follows_store d hh hsep hlen (fun _ _ => rfl) fun _ _ => rfl
  obtain ⟨sectors, hsectors, hrefill⟩ := @exists_follows_refill _ f count
    (Header.Intact.congr hindex hh) old (hsize ▸ Header.le_maxRoom hh hlen)
  rw [hsize, held_store d hh hsep hlen (fun _ _ => rfl) fun _ _ => rfl] at hrefill
  rw [Header.data_congr hindex, Header.index_congr hindex] at hsectors
  obtain ⟨q, hact⟩ := OpenFile.exists_write_read hh hsep hread hwrite hstore hsectors hrefill
  exact ⟨_, hact, OpenFile.written_writeScript hh hsep
    (fun s hs => hread.covered s (List.mem_append_left _ hs)) 0 d.image q⟩

theorem exists_refill_store {old : Directory} (hroom : fileSize old.size ≤ maxRoom) : ∃ disk',
    (do let ((), d) ← Disk.runOn old (refill f); d.store f; return d) ⟨m, count, p⟩
      = .ok (held m f.header old.size) disk' ∧ disk'.medium = m := by
  have hstore : Follows m count ((held m f.header old.size).store f)
      (f.header.writeScript m 0 (held m f.header old.size).image) (.ok ()) :=
    follows_store_of_room _ hh hsep (by rwa [size_held]) (fun _ _ => rfl) fun _ _ => rfl
  obtain ⟨sectors, hsectors, hrefill⟩ := @exists_follows_refill m f count hh old hroom
  have hdata : ∀ i < f.moved 0 (held m f.header old.size).image.size,
      (held m f.header old.size).image[i]? = (f.header.contents m)[0 + i]? := by
    intro i hi
    have hmoved := f.moved_eq 0 (held m f.header old.size).image.size
    have hlt : i < (f.header.contents m).size := by
      rw [Header.size_contents]
      omega
    rw [size_image, size_held] at hmoved hi
    rw [getElem?_image_held (by omega), Nat.zero_add, Array.getD_eq_getD_getElem?,
      Array.getElem?_eq_getElem hlt, Option.getD_some]
  have hboth : ∃ q, (do let ((), d) ← Disk.runOn old (refill f); d.store f; return d) ⟨m, count, p⟩
      = .ok (held m f.header old.size) ⟨m, count, q⟩ :=
    OpenFile.exists_read_write hh hsep hread hwrite hsectors hrefill
      (hstore.bind_nil (Follows.pure _)) hdata
  exact hboth.elim fun q hact => ⟨_, hact, rfl⟩

end Directory

/-! ## Headers -/

theorem Medium.put_get {m : Medium} {s : Nat} (h : sectorSize * (s + 1) ≤ m.size) :
    m.put s (m.get s) = m := by
  refine ext_byteAt (by rw [size_put, Nat.max_eq_left h]) fun i => ?_
  have hmod : i % sectorSize < 128 := Nat.mod_lt _ (by decide)
  have hget : (m.put s (m.get s)).get (i / sectorSize) = m.get (i / sectorSize) := by
    by_cases hi : i / sectorSize = s
    · rw [hi, get_put_self]
    · rw [get_put_of_ne _ _ hi]
  rw [← Nat.div_add_mod i sectorSize, ← getElem_get _ _ hmod, ← getElem_get _ _ hmod, hget]

namespace Header

variable {m : Medium} {count : Nat} {q : FaultPlan} {p : Int32}

theorem store_eq (hwrite : Disk.Accepts ⟨m, count, q⟩ [Word.wide p]) (h : Header) :
    h.store p ⟨m, count, q⟩ = .ok () ⟨m.put (Word.wide p) h.toSector, count, q.afterWrite⟩ := by
  rw [store]
  exact Script.run_write hwrite.writeFails (hwrite.lt_count _ (List.mem_cons_self ..)) h.toSector

theorem fetch_eq (hread : Disk.Delivers ⟨m, count, q⟩ [Word.wide p]) :
    fetch p ⟨m, count, q⟩ = .ok (ofSector (m.get (Word.wide p))) ⟨m, count, q.afterRead⟩ :=
  have hfetch : Follows m count (fetch p) (Script.reads [Word.wide p])
      (.ok (ofSector (m.get (Word.wide p)))) := (Follows.readSector _).map
  hfetch.eval_of_delivers hread

/-- A header that is stored is read as it was. The medium need not have reached so far before. -/
theorem exists_store_fetch (hwrite : Disk.Accepts ⟨m, count, q⟩ [Word.wide p])
    (hread : q.Yields [Word.wide p]) (h : Header) :
    ∃ disk', (do h.store p; fetch p) ⟨m, count, q⟩ = .ok h disk' ∧
      disk'.medium = m.put (Word.wide p) h.toSector := by
  have hdeliver : Disk.Delivers ⟨m.put (Word.wide p) h.toSector, count, q.afterWrite⟩
      [Word.wide p] := {
    reads := hread.reads
    readable := hread.readable
    lt_count := hwrite.lt_count
    covered := fun s hs => by
      rw [List.mem_singleton.mp hs, Medium.size_put]
      exact Nat.le_max_right .. }
  refine ⟨⟨m.put (Word.wide p) h.toSector, count, q.afterWrite.afterRead⟩, ?_, by dsimp only⟩
  rw [bind_apply, store_eq hwrite]
  dsimp only
  rw [fetch_eq hdeliver, Medium.get_put_self, ofSector_toSector]

theorem exists_fetch_store (hread : Disk.Delivers ⟨m, count, q⟩ [Word.wide p])
    (hwrite : Disk.Accepts ⟨m, count, q⟩ [Word.wide p]) : ∃ disk',
    (do let h ← fetch p; h.store p; return h) ⟨m, count, q⟩
      = .ok (ofSector (m.get (Word.wide p))) disk' ∧ disk'.medium = m := by
  have hcovered : sectorSize * (Word.wide p + 1) ≤ m.size :=
    hread.covered _ (List.mem_cons_self ..)
  have hstore := store_eq hwrite.afterRead (ofSector (m.get (Word.wide p)))
  rw [toSector_ofSector, Medium.put_get hcovered] at hstore
  refine ⟨⟨m, count, q.afterRead.afterWrite⟩, ?_, rfl⟩
  rw [bind_apply, fetch_eq hread]
  dsimp only
  rw [bind_apply, hstore]
  rfl

end Header

/-! ## All tables and all headers -/

/--
**Tables come back from their files, and headers from their sectors.** Let a file be open whose
header and index blocks are in order and name no sector twice, on a disk where its sectors can be
read and written. Any directory that the file is long enough for is, once it is stored, read as it
was, into whatever slots, if there are as many; and no byte of the medium has changed but those that
hold the image. Whatever the contents of the file, and though it be shorter than the image, the
slots are filled with its bytes and with zeros after them, and nothing of the old slots is left; to
store what was read leaves the medium as it was. On any disk a header comes back from a sector that
can be written and read, and to store the header that was read from a sector leaves the medium as it
was, whatever the sector held.
-/
theorem tables_and_headers_come_back {disk : Disk} {f : OpenFile}
    (hh : f.header.Intact disk.medium) (hsep : f.header.Separate disk.medium)
    (hread : disk.Readable (f.header.data disk.medium ++ f.header.index disk.medium))
    (hwrite : disk.Accepts (f.header.data disk.medium)) :
    (∀ d old : Directory, old.size = d.size → Directory.fileSize d.size ≤ f.length → ∃ disk',
      (do d.store f; Disk.runOn old (Directory.refill f)) disk = .ok ((), d) disk' ∧
        f.Written 0 d.image disk disk') ∧
    (∀ old : Directory, Directory.fileSize old.size ≤ maxRoom → ∃ d : Directory,
      d.size = old.size ∧
      (∀ k < Directory.fileSize old.size,
        d.image[k]? = some ((f.header.contents disk.medium).getD k 0)) ∧
      (∃ disk', Disk.runOn old (Directory.refill f) disk = .ok ((), d) disk' ∧
        disk'.medium = disk.medium) ∧
      ∃ disk', (do let ((), d) ← Disk.runOn old (Directory.refill f); d.store f; return d) disk
        = .ok d disk' ∧ disk'.medium = disk.medium) ∧
    ∀ (disk : Disk) (p : Int32), disk.Accepts [Word.wide p] →
      (∀ h : Header, disk.faults.Yields [Word.wide p] → ∃ disk',
        (do h.store p; Header.fetch p) disk = .ok h disk' ∧
          disk'.medium = disk.medium.put (Word.wide p) h.toSector) ∧
      (disk.Delivers [Word.wide p] → ∃ disk',
        (do let h ← Header.fetch p; h.store p; return h) disk
          = .ok (.ofSector (disk.medium.get (Word.wide p))) disk' ∧
            disk'.medium = disk.medium) := by
  refine ⟨fun d old hsize hlen => ?_, fun old hroom => ?_, fun disk p hwrite => ⟨fun h hread => ?_,
    fun hread => ?_⟩⟩
  · exact Directory.exists_store_refill hh hread hsep hwrite hsize hlen
  · exact ⟨Directory.held disk.medium f.header old.size, Directory.size_held ..,
      fun k hk => Directory.getElem?_image_held hk, Directory.exists_refill hh hread hroom,
      Directory.exists_refill_store hh hread hsep hwrite hroom⟩
  · exact Header.exists_store_fetch hwrite hread h
  · exact Header.exists_fetch_store hread hwrite

/--
A file of a hundred bytes takes three slots, of which one was given up and one holds no entry that
could have been made, and gives five, of which the fourth is read in part and the fifth not at all.
-/
theorem tables_and_headers_come_back_hundred : ∃ (disk : Disk) (f : OpenFile) (d : Directory),
    f.header.Intact disk.medium ∧ f.header.Separate disk.medium ∧
    disk.Readable (f.header.data disk.medium ++ f.header.index disk.medium) ∧
    disk.Accepts (f.header.data disk.medium) ∧ f.length = 100 ∧
    d = ⟨#[.named "a" 7 .file, (Entry.named "b" 8 .directory).retired,
      ⟨9, -1, .replicate 20 255, 5⟩]⟩ ∧
    (∃ disk', (do
        d.store f
        Disk.runOn (Directory.mk (.replicate 3 (.named "old" 4 .file))) (Directory.refill f)) disk
      = .ok ((), d) disk') ∧
    (∃ d' disk', Disk.runOn (Directory.mk (.replicate 5 (.named "old" 4 .file)))
        (Directory.refill f) disk = .ok ((), d') disk' ∧
      ∀ k, 100 ≤ k → k < 160 → d'.image[k]? = some 0) ∧
    ∃ disk', (do Header.empty.store 3; Header.fetch 3) disk = .ok .empty disk' := by
  obtain ⟨m, f, -, hf, hsep, hlength, hread, hwrite⟩ :=
    Header.exists_open_allocated 100 4 (by decide) (by decide) (by decide)
  obtain ⟨hstore, hrefill, hheader⟩ :=
    @tables_and_headers_come_back ⟨m, 4, {}⟩ f hf hsep hread hwrite
  refine ⟨⟨m, 4, {}⟩, f, _, hf, hsep, hread, hwrite, hlength, rfl, ?_, ?_, ?_⟩
  · have hlen : Directory.fileSize 3 ≤ f.length :=
      Nat.le_trans (m := 100) (by decide) (Nat.le_of_eq hlength.symm)
    obtain ⟨disk', hact, -⟩ := hstore ⟨#[.named "a" 7 .file,
      (Entry.named "b" 8 .directory).retired, ⟨9, -1, .replicate 20 255, 5⟩]⟩
      ⟨.replicate 3 (.named "old" 4 .file)⟩ rfl hlen
    exact ⟨disk', hact⟩
  · obtain ⟨d, -, himage, ⟨disk', hact, -⟩, -⟩ :=
      hrefill ⟨.replicate 5 (.named "old" 4 .file)⟩ (by decide)
    refine ⟨d, disk', hact, fun k hle hlt => ?_⟩
    have hend : (f.header.contents m).size ≤ k := by
      rw [Header.size_contents]
      exact Nat.le_trans (Nat.le_of_eq hlength) hle
    rw [himage k hlt, Array.getD_eq_getD_getElem?, Array.getElem?_eq_none hend, Option.getD_none]
  · obtain ⟨disk', hact, -⟩ := (hheader ⟨m, 4, {}⟩ 3
      (Disk.accepts_default (by decide))).1 .empty ⟨by simp, fun _ _ => rfl⟩
    exact ⟨disk', hact⟩

end IndexedDisk
