import IndexedDisk.Proofs.Tree

/-!
# What leaves the tree alone

A change to the medium that spares all headers and index blocks leaves every file where it lies
(`Framed`). If it also spares the sector map and the directories, the tree is the same
(`SameTree.names_iff`, `SameTree.consistent`). What is left to change is data of regular files and
sectors that nobody owns. A directory and the sector map are changed together (`Rewritten`).
-/

namespace IndexedDisk.Tree

variable {m m' : Medium} {count : Nat}

/-- No header and no index block has changed. -/
def Framed (m m' : Medium) : Prop :=
  ∀ o s, Names m o s → m'.get s = m.get s ∧ ∀ i ∈ (Header.stored m s).index m, m'.get i = m.get i

/-- A change that is limited to data and to sectors without an owner keeps headers and blocks. -/
theorem Framed.of_data (h : ∀ i o r, m'.get i ≠ m.get i → Owns m o r i → ∃ k, r = .data k) :
    Framed m m' := by
  intro o s hs
  have hkeep {i : Nat} {r : Role} (hi : Owns m o r i) (hr : ∀ k, r ≠ .data k) :
      m'.get i = m.get i := by
    by_cases heq : m'.get i = m.get i
    · exact heq
    · obtain ⟨k, hk⟩ := h i o r heq hi
      exact absurd hk (hr k)
  refine ⟨hkeep (owns_header hs) nofun, fun i hi => ?_⟩
  obtain ⟨k, hk⟩ := owns_index hs hi
  exact hkeep hk nofun

namespace Framed

theorem refl (m : Medium) : Framed m m := fun _ _ _ => ⟨rfl, fun _ _ => rfl⟩

section

variable (hf : Framed m m') {o : Owner} {s : Nat} (hs : Names m o s)
include hf hs

theorem stored_eq : Header.stored m' s = Header.stored m s := by
  rw [Header.stored, Header.stored, (hf o s hs).1]

theorem data_eq : (Header.stored m' s).data m' = (Header.stored m s).data m := by
  rw [hf.stored_eq hs, Header.data_congr (hf o s hs).2]

theorem index_eq : (Header.stored m' s).index m' = (Header.stored m s).index m := by
  rw [hf.stored_eq hs, Header.index_congr (hf o s hs).2]

theorem sector?_eq (r : Role) : r.sector? m' s = r.sector? m s := by
  cases r with
  | header => rfl
  | data k => exact congrArg (·[k]?) (hf.data_eq hs)
  | index k => exact congrArg (·[k]?) (hf.index_eq hs)

theorem intact (hh : (Header.stored m s).Intact m) : (Header.stored m' s).Intact m' := by
  rw [hf.stored_eq hs]
  exact Header.Intact.congr (hf o s hs).2 hh

end

section

variable {a b : Medium} (ha : Framed m a) (hb : Framed m b) {o : Owner} {s : Nat}
  (hs : Names m o s)
include ha hb hs

theorem getD_contents_eq {x : Nat} (h : a.get ((Header.stored m s).sectorAt m (x / sectorSize))
      = b.get ((Header.stored m s).sectorAt m (x / sectorSize))) :
    ((Header.stored a s).contents a).getD x 0 = ((Header.stored b s).contents b).getD x 0 := by
  have hindex := (hb o s hs).2
  rw [ha.stored_eq hs, hb.stored_eq hs, Array.getD_eq_getD_getElem?, Array.getD_eq_getD_getElem?,
    Header.getElem?_contents, Header.getElem?_contents, Header.byte_congr (m := b)]
  · intro i hi
    rw [Header.index_congr hindex] at hi
    rw [(ha o s hs).2 i hi, hindex i hi]
  · rwa [Header.sectorAt_congr hindex]

theorem contents_eq_of (hh : (Header.stored m s).Intact m)
    (hdata : ∀ i ∈ (Header.stored m s).data m, a.get i = b.get i) :
    (Header.stored a s).contents a = (Header.stored b s).contents b := by
  have hindex := (hb o s hs).2
  rw [ha.stored_eq hs, hb.stored_eq hs]
  refine Header.contents_congr (Header.Intact.congr hindex hh) (fun i hi => ?_) fun i hi => ?_
  · rw [Header.index_congr hindex] at hi
    rw [(ha o s hs).2 i hi, hindex i hi]
  · rw [Header.data_congr hindex] at hi
    exact hdata i hi

end

end Framed

/-- Nothing that the tree depends on has changed. -/
structure SameTree (m m' : Medium) : Prop where
  framed : Framed m m'
  map : ∀ i ∈ (Header.stored m (Word.wide mapSector)).data m, m'.get i = m.get i
  directory : ∀ d, Reached m d → ∀ i ∈ (Header.stored m d).data m, m'.get i = m.get i

/-- A change that is limited to sectors without an owner keeps the tree. -/
theorem SameTree.of_free (h : ∀ i o r, Owns m o r i → m'.get i = m.get i) : SameTree m m' where
  framed := Framed.of_data fun i o r hne hi => absurd (h i o r hi) hne
  map i hi := by
    obtain ⟨k, hk⟩ := owns_data .map hi
    exact h i _ _ hk
  directory d hd i hi := by
    obtain ⟨o, -, ho⟩ := exists_names hd
    obtain ⟨k, hk⟩ := owns_data ho hi
    exact h i _ _ hk

namespace Consistent

variable (hc : Consistent m count)
include hc

theorem role_of_mem_data {o o' : Owner} {s i : Nat} {r : Role} (hs : Names m o s)
    (hi : i ∈ (Header.stored m s).data m) (h : Owns m o' r i) : o' = o ∧ ∃ k, r = .data k := by
  obtain ⟨k, hk⟩ := owns_data hs hi
  obtain ⟨ho, hr⟩ := hc.unique _ _ _ _ _ h hk
  exact ⟨ho, k, hr⟩

theorem data_disjoint {o o' : Owner} {s s' i : Nat} (hs : Names m o s) (hs' : Names m o' s')
    (hne : o ≠ o') (hi : i ∈ (Header.stored m s).data m) :
    i ∉ (Header.stored m s').data m := by
  intro hi'
  obtain ⟨k, hk⟩ := owns_data hs' hi'
  exact hne (hc.role_of_mem_data hs hi hk).1.symm

section

variable {a b : Medium} (ha : Framed m a) (hb : Framed m b)
include ha hb

theorem table_eq_of {d : Nat} (hd : Reached m d)
    (hdata : ∀ i ∈ (Header.stored m d).data m, a.get i = b.get i) : table a d = table b d := by
  obtain ⟨o, -, ho⟩ := exists_names hd
  rw [table, table, Directory.held, Directory.held,
    ha.contents_eq_of hb ho (hc.intact _ _ ho) hdata]

theorem bitmap_eq_of
    (hdata : ∀ i ∈ (Header.stored m (Word.wide mapSector)).data m, a.get i = b.get i) :
    bitmap a count = bitmap b count := by
  rw [bitmap, bitmap, SectorMap.held, SectorMap.held,
    ha.contents_eq_of hb .map (hc.intact _ _ .map) hdata]

end

theorem table_eq (hf : Framed m m') {d : Nat} (hd : Reached m d)
    (hdata : ∀ i ∈ (Header.stored m d).data m, m'.get i = m.get i) : table m' d = table m d :=
  hc.table_eq_of hf (.refl m) hd hdata

theorem slot?_eq (hf : Framed m m') {d : Nat} (hd : Reached m d)
    (hdata : ∀ i ∈ (Header.stored m d).data m, m'.get i = m.get i) (j : Nat) :
    slot? m' d j = slot? m d j :=
  slot?_congr (hc.table_eq hf hd hdata) j

theorem bitmap_eq (hf : Framed m m')
    (hdata : ∀ i ∈ (Header.stored m (Word.wide mapSector)).data m, m'.get i = m.get i) :
    bitmap m' count = bitmap m count :=
  hc.bitmap_eq_of hf (.refl m) hdata

end Consistent

namespace SameTree

variable (h : SameTree m m') (hc : Consistent m count)
include h hc

theorem slot?_eq (d : Nat) (hd : Reached m d) (j : Nat) : slot? m' d j = slot? m d j :=
  hc.slot?_eq h.framed hd (h.directory d hd) j

theorem reached_iff {d : Nat} : Reached m' d ↔ Reached m d := reached_congr (h.slot?_eq hc)

theorem names_iff {o : Owner} {s : Nat} : Names m' o s ↔ Names m o s := names_congr (h.slot?_eq hc)

theorem owns_iff {o : Owner} {r : Role} {i : Nat} : Owns m' o r i ↔ Owns m o r i := by
  constructor
  · rintro ⟨s, hs, hr⟩
    have hs := (h.names_iff hc).mp hs
    exact ⟨s, hs, (h.framed.sector?_eq hs r).symm.trans hr⟩
  · rintro ⟨s, hs, hr⟩
    exact ⟨s, (h.names_iff hc).mpr hs, (h.framed.sector?_eq hs r).trans hr⟩

theorem bitmap_eq : bitmap m' count = bitmap m count := hc.bitmap_eq h.framed h.map

theorem consistent (hsize : m'.size = m.size) : Consistent m' count where
  covered := hsize ▸ hc.covered
  intact o s hs := by
    have hs := (h.names_iff hc).mp hs
    exact h.framed.intact hs (hc.intact o s hs)
  map_length := by
    rw [h.framed.stored_eq .map]
    exact hc.map_length
  directory_length d hd := by
    have hd := (h.reached_iff hc).mp hd
    obtain ⟨o, -, ho⟩ := exists_names hd
    rw [h.framed.stored_eq ho]
    exact hc.directory_length d hd
  unique o r o' r' i ho ho' :=
    hc.unique o r o' r' i ((h.owns_iff hc).mp ho) ((h.owns_iff hc).mp ho')
  tidy := by
    rw [h.bitmap_eq hc]
    exact hc.tidy
  bit_iff i := by
    rw [h.bitmap_eq hc, hc.bit_iff]
    simp only [h.owns_iff hc]

end SameTree

/-! ## Writing a file -/

namespace Consistent

variable (hc : Consistent m count) {o o' : Owner} {s s' : Nat} (hs : Names m o s)
include hc hs

theorem get_write {i : Nat} (hi : i ∉ (Header.stored m s).data m) (position : Nat)
    (data : Array UInt8) :
    (((Header.stored m s).writeScript m position data).medium m').get i = m'.get i :=
  Script.get_medium_of_not_mem
    (fun h => hi (Header.targets_writeScript_subset position data (hc.intact o s hs) h)) m'

theorem framed_write (position : Nat) (data : Array UInt8) :
    Framed m (((Header.stored m s).writeScript m position data).medium m) :=
  Framed.of_data fun i o' r hne hi => by
    by_cases hdata : i ∈ (Header.stored m s).data m
    · exact (hc.role_of_mem_data hs hdata hi).2
    · exact absurd (hc.get_write hs hdata position data) hne

theorem table_write (hreached : Reached m s) {d : Directory} (hsize : d.size = directorySlots) :
    table (((Header.stored m s).writeScript m 0 d.image).medium m) s = d := by
  have hlength : (Header.stored m s).length = Directory.fileSize d.size := by
    rw [hc.directory_length s hreached, hsize]
    rfl
  rw [table, (hc.framed_write hs 0 d.image).stored_eq hs, ← hsize]
  exact Directory.held_store d (hc.intact _ _ hs) (hc.separate hs)
    (Nat.le_of_eq hlength.symm) (fun _ _ => rfl) fun _ _ => rfl

theorem contents_write (hs' : Names m o' s') (hne : o' ≠ o)
    (hindex : ∀ i ∈ (Header.stored m s').index m, m'.get i = m.get i) (position : Nat)
    (data : Array UInt8) : (Header.stored m s').contents
      (((Header.stored m s).writeScript m position data).medium m')
        = (Header.stored m s').contents m' := by
  refine Header.contents_congr (Header.Intact.congr hindex (hc.intact o' s' hs'))
    (fun i hi => hc.get_write hs (fun hd => ?_) position data)
    (fun i hi => hc.get_write hs (fun hd => ?_) position data)
  · rw [Header.index_congr hindex] at hi
    obtain ⟨k, hk⟩ := owns_index hs' hi
    obtain ⟨k', hk'⟩ := (hc.role_of_mem_data hs hd hk).2
    cases hk'
  · rw [Header.data_congr hindex] at hi
    exact hc.data_disjoint hs' hs hne hi hd

end Consistent

/-! ## Writing a directory and the sector map -/

/--
Of what the tree owns nothing has changed but the directory whose header lies in sector `p` and the
sector map, and this is what they have become.
-/
structure Rewritten (m m' : Medium) (count p : Nat) (d : Directory) (map : SectorMap) : Prop where
  keeps : ∀ i o r, Owns m o r i → i ∉ (Header.stored m p).data m →
    i ∉ (Header.stored m (Word.wide mapSector)).data m → m'.get i = m.get i
  directory : Directory.held m' (Header.stored m p) directorySlots = d
  map : SectorMap.held m' (Header.stored m (Word.wide mapSector)) count = map

namespace Rewritten

variable {p : Nat} {d : Directory} {map : SectorMap} (h : Rewritten m m' count p d map)
  (hc : Consistent m count) (hp : Reached m p)
include h hc

theorem framed (hp : Reached m p) : Framed m m' := by
  obtain ⟨o, -, ho⟩ := exists_names hp
  refine Framed.of_data fun i o' r hne hi => ?_
  by_cases hmap : i ∈ (Header.stored m (Word.wide mapSector)).data m
  · exact (hc.role_of_mem_data .map hmap hi).2
  by_cases hdata : i ∈ (Header.stored m p).data m
  · exact (hc.role_of_mem_data ho hdata hi).2
  · exact absurd (h.keeps i o' r hi hdata hmap) hne

include hp

theorem table_eq : table m' p = d := by
  obtain ⟨o, -, ho⟩ := exists_names hp
  rw [table, (h.framed hc hp).stored_eq ho, h.directory]

theorem bitmap_eq : bitmap m' count = map := by
  rw [bitmap, (h.framed hc hp).stored_eq .map, h.map]

theorem get_data {o : Owner} {s i : Nat} (hs : Names m o s) (hi : i ∈ (Header.stored m s).data m)
    (hmap : o ≠ .map) (hparent : s ≠ p) : m'.get i = m.get i := by
  obtain ⟨o', -, ho'⟩ := exists_names hp
  have hne : o ≠ o' := by
    rintro rfl
    exact hparent (names_functional hs ho')
  obtain ⟨k, hk⟩ := owns_data hs hi
  exact h.keeps i _ _ hk (hc.data_disjoint hs ho' hne hi) (hc.data_disjoint hs .map hmap hi)

theorem table_of_ne {s : Nat} (hs : Reached m s) (hne : s ≠ p) : table m' s = table m s := by
  obtain ⟨o, hmap, ho⟩ := exists_names hs
  exact hc.table_eq (h.framed hc hp) hs fun i hi => h.get_data hc hp ho hi hmap hne

end Rewritten

end IndexedDisk.Tree
