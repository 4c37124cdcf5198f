import IndexedDisk.Proofs.Sets
import IndexedDisk.Proofs.Stored
import IndexedDisk.Proofs.Transfers

/-!
# Maps and their images

A map is kept in a file by its image, in which sector `i` is bit `i % 8` of byte `i / 8`. The file
may be longer than the image, and its contents may be any bytes.

* `exists_follows_fetch`: fetching a map reads sectors of its file only.
* `getElem?_image_held`: a map that was fetched is the beginning of its file, to the byte.
* `images_give_back_maps`: maps come back from their images, and images from their maps.
-/

namespace IndexedDisk

namespace SectorMap

variable {m : Medium} {h : Header} {f : OpenFile} {count size : Nat}

theorem isMarked_held {i : Nat} (hi : i < size) : (held m h size).isMarked i
    = .ok (((h.contents m).getD (i / 8) 0).toNat.testBit (i % 8)) := by
  rw [isMarked, held, size_ofImage, if_pos hi, bit_ofImage _ _ (by rw [imageSize]; omega)]

theorem image_held (hlen : imageSize size ≤ h.length) :
    (held m h size).image = (h.contents m).extract 0 (imageSize size) := by
  have hcut : held m h size = ofImage size ((h.contents m).extract 0 (imageSize size)) := by
    refine ofImage_congr fun j hj => ?_
    rw [Array.getD_eq_getD_getElem?, Array.getD_eq_getD_getElem?, Array.getElem?_extract,
      Header.size_contents, if_pos (by omega), Nat.zero_add]
  rw [hcut, image_ofImage (by rw [Array.size_extract, Header.size_contents]; omega)]

theorem exists_follows_fetch (hh : f.header.Intact m) (hlen : imageSize size ≤ f.header.length) :
    ∃ sectors ⊆ f.header.data m ++ f.header.index m,
      Follows m count (fetch f size) (Script.reads sectors) (.ok (held m f.header size)) := by
  obtain ⟨bytes, hbytes, sectors, hsub, hread⟩ :=
    @Header.exists_follows_readAt_zero m f count hh _ (Header.le_maxRoom hh hlen)
  refine ⟨sectors, hsub, ?_⟩
  rw [held, ← ofImage_congr hbytes]
  exact Follows.bind_nil hread (Follows.pure _)

theorem moved_image (hlen : imageSize size ≤ f.header.length) :
    f.moved 0 (imageSize size) = imageSize size := by
  rw [← OpenFile.moved_eq]
  omega

theorem getElem?_image_held (hlen : imageSize size ≤ f.header.length) {i : Nat}
    (hi : i < f.moved 0 (held m f.header size).image.size) :
    (held m f.header size).image[i]? = (f.header.contents m)[0 + i]? := by
  have hsize : (held m f.header size).size = size := size_ofImage ..
  rw [size_image, hsize, moved_image hlen] at hi
  rw [image_held hlen, Array.getElem?_extract, Header.size_contents, if_pos (by omega)]

/-! ## Storing and fetching -/

/-- The map lies at the start of the file, and nothing else on the disk has changed. -/
structure StoredIn (map : SectorMap) (f : OpenFile) (disk disk' : Disk) : Prop where
  isMarked_eq : ∀ i < map.size, map.isMarked i
    = .ok (((f.header.contents disk'.medium).getD (i / 8) 0).toNat.testBit (i % 8))
  contents_eq : ∀ o, imageSize map.size ≤ o →
    (f.header.contents disk'.medium)[o]? = (f.header.contents disk.medium)[o]?
  byteAt_eq : ∀ a, (∀ o < imageSize map.size, a ≠ f.header.address disk.medium o) →
    disk'.medium.byteAt a = disk.medium.byteAt a
  size_eq : disk'.medium.size = disk.medium.size
  count_eq : disk'.count = disk.count

variable {p : FaultPlan} (hh : f.header.Intact m) (hsep : f.header.Separate m)
  (hread : Disk.Readable ⟨m, count, p⟩ (f.header.data m ++ f.header.index m))
  (hwrite : Disk.Accepts ⟨m, count, p⟩ (f.header.data m))
include hh hsep hread hwrite

theorem exists_store_fetch (map : SectorMap) (hlen : imageSize map.size ≤ f.header.length) :
    ∃ disk', (do map.store f; fetch f map.size) ⟨m, count, p⟩ = .ok map disk' ∧
      map.StoredIn f ⟨m, count, p⟩ disk' := by
  have hheld := held_store map hh hsep hlen (fun _ _ => rfl) fun _ _ => rfl
  have hindex := fun s (hs : s ∈ f.header.index m) =>
    Header.index_writeScript 0 map.image hh hsep hs
  have hstore : Follows m count (map.store f) (f.header.writeScript m 0 map.image) (.ok ()) :=
    follows_store map hh hsep hlen (fun _ _ => rfl) fun _ _ => rfl
  obtain ⟨sectors, hsectors, hfetch⟩ := @exists_follows_fetch _ f count _
    (Header.Intact.congr hindex hh) hlen
  rw [hheld] at hfetch
  rw [Header.data_congr hindex, Header.index_congr hindex] at hsectors
  obtain ⟨q, hact⟩ := OpenFile.exists_write_read hh hsep hread hwrite hstore hsectors hfetch
  obtain ⟨-, outside, byteAt_eq, size_eq, count_eq⟩ := @OpenFile.written_writeScript m count p f
    hh hsep (fun s hs => hread.covered s (List.mem_append_left _ hs)) 0 map.image q
  rw [size_image, moved_image hlen] at outside byteAt_eq
  refine ⟨_, hact, {
    isMarked_eq := fun i hi => ?_
    contents_eq := fun o ho => outside o (Or.inr (by omega))
    byteAt_eq := fun a ha => byteAt_eq a fun i hi => by rw [Nat.zero_add]; exact ha i hi
    size_eq := size_eq
    count_eq := count_eq }⟩
  conv => lhs; rw [← hheld]
  exact isMarked_held hi

theorem exists_fetch_store (hlen : imageSize size ≤ f.header.length) :
    ∃ disk', (do let map ← fetch f size; map.store f; return map) ⟨m, count, p⟩
      = .ok (held m f.header size) disk' ∧ disk'.medium = m := by
  have hstore : Follows m count ((held m f.header size).store f)
      (f.header.writeScript m 0 (held m f.header size).image) (.ok ()) :=
    follows_store _ hh hsep hlen (fun _ _ => rfl) fun _ _ => rfl
  obtain ⟨sectors, hsectors, hfetch⟩ := @exists_follows_fetch _ _ count _ hh hlen
  have hboth : ∃ q, (do let map ← fetch f size; map.store f; return map) ⟨m, count, p⟩
      = .ok (held m f.header size) ⟨m, count, q⟩ :=
    OpenFile.exists_read_write hh hsep hread hwrite hsectors hfetch
      (hstore.bind_nil (Follows.pure _)) fun i hi => getElem?_image_held hlen hi
  exact hboth.elim fun q hact => ⟨_, hact, rfl⟩

end SectorMap

/-! ## Maps in words -/

namespace Keeper

theorem size_respond (m : SectorMap) (c : Call) : (maps.respond m c).2.size = m.size := by
  cases c with
  | mark i =>
    simp only [respond, maps, SectorMap.mark]
    by_cases hi : i < m.size
    · simp only [hi, if_true, SectorMap.size_setBit]
    · simp only [hi, if_false]
  | release i =>
    simp only [respond, maps, SectorMap.release]
    by_cases hi : i < m.size
    · cases hbit : m.bit i <;> simp [hi]
    · simp only [hi, if_false]
  | take =>
    cases htake : m.take with
    | none => simp only [respond, maps, htake]
    | some taken =>
      obtain ⟨i, n⟩ := taken
      obtain ⟨-, -, -, rfl⟩ := (SectorMap.take_eq_some_iff m n i).mp htake
      simp only [respond, maps, htake, SectorMap.size_setBit]

theorem size_run (calls : List Call) (m : SectorMap) : (maps.run calls m).2.size = m.size := by
  induction calls generalizing m with
  | nil => rfl
  | cons c calls ih => exact (ih _).trans (size_respond m c)

end Keeper

namespace WordMap

/-- The words of a new map or of one that was read, after calls. -/
def Built (size : Nat) (w : WordMap) : Prop :=
  ∃ w₀ calls, (new size = .ok w₀ ∨ ∃ bytes : Array UInt8,
    bytes.size = SectorMap.imageSize size ∧ w₀ = ofImage size bytes.toList) ∧
    w = (Keeper.words.run calls w₀).2

theorem Built.exists_packs {size : Nat} {w : WordMap} (hw : Built size w) :
    ∃ m : SectorMap, m.size = size ∧ w.Packs m := by
  obtain ⟨w₀, calls, hstart, rfl⟩ := hw
  obtain ⟨m₀, rfl, hpacks⟩ : ∃ m₀ : SectorMap, m₀.size = size ∧ w₀.Packs m₀ := by
    rcases hstart with hnew | ⟨bytes, hbytes, rfl⟩
    · unfold new at hnew
      split at hnew
      · cases hnew
        exact ⟨_, rfl, packs_empty size⟩
      · cases hnew
    · exact ⟨_, rfl, packs_ofImage (Nat.le_of_eq hbytes)⟩
  exact ⟨_, Keeper.size_run calls m₀, (Keeper.follower_words.run calls hpacks).left⟩

theorem Packs.ofImage_image {w : WordMap} {m : SectorMap} (hw : Packs w m) :
    ofImage m.size w.image = w := by
  have hback : Packs (ofImage m.size m.image.toList) (SectorMap.ofImage m.size m.image) :=
    packs_ofImage (Nat.le_of_eq (SectorMap.size_image m))
  rw [SectorMap.ofImage_image] at hback
  rw [hw.image_eq]
  exact (hback.eq_iff hw).mpr rfl

theorem image_ofImage {size : Nat} {bytes : Array UInt8}
    (h : bytes.size = SectorMap.imageSize size) :
    (ofImage size bytes.toList).image = bytes.toList := by
  rw [(packs_ofImage (Nat.le_of_eq h)).image_eq, SectorMap.image_ofImage h]

end WordMap

/-! ## All maps and all images -/

/--
**Maps come back from their images, and images from their maps.** Let a file be open that is
intact and names no sector twice, as any file does that was allocated, on a disk where its sectors
can be read and written, and let it be long enough for the image of a map of `size` sectors.
Any such map that is stored in it is fetched as it was; sector `i` is then bit `i % 8` of byte
`i / 8` of the file, and neither a later byte of the file nor any other byte of the medium has
changed. Whatever the contents of the file, they stand for a map that can be fetched, by the same
rule, and to store that map leaves the medium as it was. Words that were built of a new or of a
stored map go through the bytes of that image in the same way, and so do the bytes through words.
-/
theorem images_give_back_maps {disk : Disk} {f : OpenFile} {size : Nat}
    (hf : f.header.Intact disk.medium) (hsep : f.header.Separate disk.medium)
    (hread : disk.Readable (f.header.data disk.medium ++ f.header.index disk.medium))
    (hwrite : disk.Accepts (f.header.data disk.medium))
    (hlen : SectorMap.imageSize size ≤ f.length) :
    (∀ map : SectorMap, map.size = size → ∃ disk',
      (do map.store f; SectorMap.fetch f size) disk = .ok map disk' ∧
        map.StoredIn f disk disk') ∧
    (∃ map disk', (do let map ← SectorMap.fetch f size; map.store f; return map) disk
        = .ok map disk' ∧ disk'.medium = disk.medium ∧ map.size = size ∧
      ∀ i < size, map.isMarked i
        = .ok (((f.header.contents disk.medium).getD (i / 8) 0).toNat.testBit (i % 8))) ∧
    (∀ w, WordMap.Built size w → ∃ map : SectorMap, map.size = size ∧ w.Packs map ∧
      w.image = map.image.toList ∧ WordMap.ofImage size w.image = w) ∧
    ∀ bytes : Array UInt8, bytes.size = SectorMap.imageSize size →
      (WordMap.ofImage size bytes.toList).Packs (SectorMap.ofImage size bytes) ∧
      (WordMap.ofImage size bytes.toList).image = bytes.toList := by
  refine ⟨?_, ?_, fun w hw => ?_, fun bytes hbytes =>
    ⟨WordMap.packs_ofImage (Nat.le_of_eq hbytes), WordMap.image_ofImage hbytes⟩⟩
  · rintro map rfl
    exact SectorMap.exists_store_fetch hf hsep hread hwrite map hlen
  · obtain ⟨disk', hact, hm⟩ :=
      SectorMap.exists_fetch_store hf hsep hread hwrite hlen
    exact ⟨_, disk', hact, hm, rfl, fun i hi => SectorMap.isMarked_held hi⟩
  · obtain ⟨map, rfl, hpacks⟩ := hw.exists_packs
    exact ⟨map, rfl, hpacks, hpacks.image_eq, hpacks.ofImage_image⟩

/-- A map of a hundred sectors goes through the first thirteen bytes of a file of two sectors. -/
theorem images_give_back_maps_hundred : ∃ (disk disk' : Disk) (f : OpenFile) (map : SectorMap),
    f.header.Intact disk.medium ∧ f.header.Separate disk.medium ∧
    disk.Readable (f.header.data disk.medium ++ f.header.index disk.medium) ∧
    disk.Accepts (f.header.data disk.medium) ∧ SectorMap.imageSize 100 ≤ f.length ∧
    map.marked = [0, 1, 63, 64, 99] ∧ f.length = 200 ∧
    (do map.store f; SectorMap.fetch f 100) disk = .ok map disk' ∧ map.StoredIn f disk disk' := by
  obtain ⟨m, f, -, hf, hsep, hlength, hread, hwrite⟩ :=
    Header.exists_open_allocated 200 4 (by decide) (by decide) (by decide)
  have hlen : SectorMap.imageSize 100 ≤ f.length := by
    rw [hlength]
    decide
  obtain ⟨disk', hact, hstored⟩ :=
    (@images_give_back_maps ⟨m, 4, {}⟩ f 100 hf hsep hread hwrite hlen).1
      ((SectorMap.empty 100).setAll [0, 1, 63, 64, 99] true) (SectorMap.size_setAll ..)
  exact ⟨⟨m, 4, {}⟩, disk', f, _, hf, hsep, hread, hwrite, hlen, by decide +kernel, hlength, hact,
    hstored⟩

end IndexedDisk
