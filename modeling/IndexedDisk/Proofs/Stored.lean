import IndexedDisk.Directory.Stored
import IndexedDisk.Proofs.Contents
import IndexedDisk.SectorMap.Lemmas
import IndexedDisk.SectorMap.Stored

/-!
# What is kept in files

A sector map and a directory are the contents of a file, taken as an image. Reading either delivers
the image of the contents (`follows_fetch`), and writing either makes its image the contents
(`follows_store`, `contents_store`), whatever the file held.
-/

namespace IndexedDisk

namespace Header

variable {m : Medium} {h : Header} {f : OpenFile} {count : Nat}

/-- The transfers that read a whole file. -/
def loadScript (m : Medium) (h : Header) : Script :=
  (spans 0 h.length).flatMap (h.readScript m)

theorem exists_loadScript (hh : h.Intact m) :
    ∃ sectors, h.loadScript m = Script.reads sectors ∧ sectors ⊆ h.data m ++ h.index m := by
  refine exists_readScripts hh fun span hspan => ?_
  have := bounds_of_mem_spans hspan
  omega

theorem follows_readAt_whole (hh : f.header.Intact m) {buffer : Array UInt8}
    (hsize : buffer.size = f.header.length) :
    Follows m count (Disk.runOn buffer (f.readAt 0)) (f.header.loadScript m)
      (.ok (f.header.length, f.header.contents m)) := by
  have hle := hh.length_le
  have hread : Follows m count _ _ _ := hh.follows_readAt 0 buffer (by
    simp only [maxFileSize, maxFileSectors, sectorSize, directPointers, blockPointers] at hle
    omega)
  rw [Nat.zero_add, hsize, Nat.min_self, Nat.sub_zero] at hread
  rwa [Bytes.overlay_zero_of_size_eq (by simp [hsize]), Array.extract_eq_self_of_le (by simp)]
    at hread

theorem follows_load (hh : f.header.Intact m) (n : Nat) (hn : n = f.header.length) (b : UInt8) :
    Follows m count (Disk.runOn (Array.replicate n b) (f.readAt 0)) (f.header.loadScript m)
      (.ok (n, f.header.contents m)) := by
  subst hn
  exact follows_readAt_whole hh Array.size_replicate

/-- A buffer of zeros is filled with the first bytes of a file, and keeps zeros past its end. -/
theorem exists_follows_readAt_zero (hh : f.header.Intact m) {n : Nat} (hn : n ≤ maxRoom) :
    ∃ bytes : Array UInt8, (∀ k < n, bytes.getD k 0 = (f.header.contents m).getD k 0) ∧
      ∃ sectors ⊆ f.header.data m ++ f.header.index m,
        Follows m count (Disk.runOn (Array.replicate n 0) (f.readAt 0)) (Script.reads sectors)
          (.ok (min n f.header.length, bytes)) := by
  obtain ⟨sectors, hsub, hread⟩ := @exists_follows_readAt m f count 0 (Array.replicate n 0) hh (by
    rw [Array.size_replicate]
    simp only [maxRoom] at hn
    omega)
  rw [Array.size_replicate, Nat.zero_add, Nat.sub_zero] at hread
  refine ⟨_, fun k hk => ?_, sectors, hsub, hread⟩
  rw [Array.getD_eq_getD_getElem?, Array.getD_eq_getD_getElem?, Bytes.getElem?_overlay,
    Array.size_extract, Array.size_replicate, size_contents]
  by_cases hlt : k < f.header.length
  · rw [if_pos (by omega), Array.getElem?_extract, size_contents, if_pos (by omega), Nat.sub_zero,
      Nat.zero_add]
  · rw [if_neg (by omega), Array.getElem?_replicate, if_pos hk,
      Array.getElem?_eq_none (by rw [size_contents]; omega)]
    rfl

theorem le_maxRoom (hh : h.Intact m) {n : Nat} (hn : n ≤ h.length) : n ≤ maxRoom := by
  have hle := hh.length_le
  simp only [maxFileSize, maxFileSectors, sectorSize, directPointers, blockPointers,
    maxRoom] at *
  omega

end Header

namespace SectorMap

variable {m : Medium} {f : OpenFile} {count size : Nat}

/-- The map of `size` sectors that a file holds. -/
def held (m : Medium) (h : Header) (size : Nat) : SectorMap := ofImage size (h.contents m)

theorem follows_fetch (hh : f.header.Intact m) (hlen : f.header.length = imageSize size) :
    Follows m count (fetch f size) (f.header.loadScript m) (.ok (held m f.header size)) :=
  Follows.bind_nil (Header.follows_load hh _ hlen.symm 0) (Follows.pure _)

theorem follows_store (map : SectorMap) (hh : f.header.Intact m) (hsep : f.header.Separate m)
    (hlen : imageSize map.size ≤ f.header.length) {m' : Medium}
    (hindex : ∀ s ∈ f.header.index m, m'.get s = m.get s)
    (hdata : ∀ s ∈ f.header.data m, m'.get s = m.get s) :
    Follows m' count (store map f) (f.header.writeScript m 0 map.image) (.ok ()) := by
  have hroom := Header.le_maxRoom hh hlen
  refine Follows.bind_nil (Header.follows_writeAt_congr 0 map.image hh hsep ?_ hindex hdata)
    (Follows.pure _)
  rw [size_image]
  simp only [maxRoom] at hroom
  omega

theorem held_store (map : SectorMap) {h : Header} (hh : h.Intact m) (hsep : h.Separate m)
    (hlen : imageSize map.size ≤ h.length) {m' : Medium}
    (hindex : ∀ s ∈ h.index m, m'.get s = m.get s) (hdata : ∀ s ∈ h.data m, m'.get s = m.get s) :
    held ((h.writeScript m 0 map.image).medium m') h map.size = map := by
  conv => rhs; rw [← ofImage_image map]
  rw [held, Header.contents_writeScript_congr 0 map.image hh hsep hindex hdata]
  refine ofImage_congr fun j hj => ?_
  rw [Array.getD_eq_getD_getElem?, Array.getD_eq_getD_getElem?, Bytes.getElem?_overlay, size_image,
    Header.size_contents, if_pos (by omega), Nat.sub_zero]

end SectorMap

namespace Directory

variable {m : Medium} {f : OpenFile} {count size : Nat}

/-- The directory of `size` slots that a file holds. -/
def held (m : Medium) (h : Header) (size : Nat) : Directory := ofImage size (h.contents m)

theorem fetch_eq (f : OpenFile) (size : Nat) : fetch f size = (do
    let (_, bytes) ← Disk.runOn (Array.replicate (fileSize size) 0) (f.readAt 0)
    return ofImage size bytes) := by
  have hsize : (empty size).size = size := by simp [empty, Directory.size]
  funext disk
  simp only [fetch, refill, Disk.runOn, bind_apply, hsize]
  cases f.readAt 0 ⟨disk, Array.replicate (fileSize size) 0⟩ <;> rfl

theorem follows_fetch (hh : f.header.Intact m) (hlen : f.header.length = fileSize size) :
    Follows m count (fetch f size) (f.header.loadScript m) (.ok (held m f.header size)) := by
  rw [fetch_eq]
  exact Follows.bind_nil (Header.follows_load hh _ hlen.symm 0) (Follows.pure _)

theorem follows_store_of_room (d : Directory) (hh : f.header.Intact m)
    (hsep : f.header.Separate m) (hroom : fileSize d.size ≤ maxRoom) {m' : Medium}
    (hindex : ∀ s ∈ f.header.index m, m'.get s = m.get s)
    (hdata : ∀ s ∈ f.header.data m, m'.get s = m.get s) :
    Follows m' count (store d f) (f.header.writeScript m 0 d.image) (.ok ()) := by
  refine Follows.bind_nil (Header.follows_writeAt_congr 0 d.image hh hsep ?_ hindex hdata)
    (Follows.pure _)
  rw [size_image]
  simp only [maxRoom] at hroom
  omega

theorem follows_store (d : Directory) (hh : f.header.Intact m) (hsep : f.header.Separate m)
    (hlen : fileSize d.size ≤ f.header.length) {m' : Medium}
    (hindex : ∀ s ∈ f.header.index m, m'.get s = m.get s)
    (hdata : ∀ s ∈ f.header.data m, m'.get s = m.get s) :
    Follows m' count (store d f) (f.header.writeScript m 0 d.image) (.ok ()) :=
  follows_store_of_room d hh hsep (Header.le_maxRoom hh hlen) hindex hdata

theorem held_store (d : Directory) {h : Header} (hh : h.Intact m) (hsep : h.Separate m)
    (hlen : fileSize d.size ≤ h.length) {m' : Medium}
    (hindex : ∀ s ∈ h.index m, m'.get s = m.get s) (hdata : ∀ s ∈ h.data m, m'.get s = m.get s) :
    held ((h.writeScript m 0 d.image).medium m') h d.size = d := by
  conv => rhs; rw [← ofImage_image d]
  rw [held, Header.contents_writeScript_congr 0 d.image hh hsep hindex hdata]
  refine ofImage_congr fun k hk => ?_
  rw [Array.getD_eq_getD_getElem?, Array.getD_eq_getD_getElem?, Bytes.getElem?_overlay, size_image,
    Header.size_contents, if_pos (by omega), Nat.sub_zero]

end Directory

end IndexedDisk
