import IndexedDisk.Proofs.Ledger
import IndexedDisk.Proofs.NewEntries

/-!
# One volume on two media

Two media hold one volume if they have the same headers, index blocks, directories and sector map
(`Twins`). All else that is on them may have been there before: free sectors, and those bytes of
regular files that were not written since the file was made. A `Coverage` says which ones were.

* `Twins.walk_eq`, `Twins.plan_eq`, `Twins.removal_eq`: the same is found on both, and the same is
  planned for them.
* `Twins.made`, `Twins.removed`, `Twins.written`: what changes the volume changes it alike.
* `Formatting.twins_after`: a new volume is one volume, wherever it is made.
-/

open IndexedDisk.Tree

namespace IndexedDisk

-- the tables of a tree are never evaluated
seal Tree.table

variable {m m' a b : Medium} {count : Nat}

/-- The bytes that were written: the header of the file, and the offset. -/
def Coverage : Type := Nat → Nat → Prop

namespace Tree

variable {w w' : Coverage}

/-- The media hold one volume, but for the bytes of regular files that were not written. -/
structure Twins (w : Coverage) (count : Nat) (m m' : Medium) : Prop where
  framed : Framed m m'
  table_eq : ∀ d, Reached m d → table m' d = table m d
  bitmap_eq : bitmap m' count = bitmap m count
  byte_eq : ∀ s, Regular m s → ∀ o, w s o →
    ((Header.stored m' s).contents m')[o]? = ((Header.stored m s).contents m)[o]?

namespace Twins

variable (h : Twins w count m m')
include h

theorem mono (hw : ∀ s o, w' s o → w s o) : Twins w' count m m' where
  framed := h.framed
  table_eq := h.table_eq
  bitmap_eq := h.bitmap_eq
  byte_eq s hs o ho := h.byte_eq s hs o (hw s o ho)

/-! ## What is found -/

theorem sameEntries : SameEntries m m' := fun d hd => congrArg Directory.list (h.table_eq d hd)

theorem slot?_eq (d : Nat) (hd : Reached m d) (i : Nat) : slot? m' d i = slot? m d i :=
  slot?_congr (h.table_eq d hd) i

theorem reached_iff {d : Nat} : Reached m' d ↔ Reached m d := reached_congr h.slot?_eq

theorem names_iff {o : Owner} {s : Nat} : Names m' o s ↔ Names m o s := names_congr h.slot?_eq

theorem regular_iff {s : Nat} : Regular m' s ↔ Regular m s := by
  constructor
  · rintro ⟨d, i, e, hd, hi, hfile⟩
    have hd := h.reached_iff.mp hd
    exact ⟨d, i, e, hd, h.slot?_eq d hd i ▸ hi, hfile⟩
  · rintro ⟨d, i, e, hd, hi, hfile⟩
    exact ⟨d, i, e, h.reached_iff.mpr hd, (h.slot?_eq d hd i).trans hi, hfile⟩

theorem walk_eq (names : List String) :
    walk (table m') rootSector [] names = walk (table m) rootSector [] names :=
  walk_congr h.sameEntries .root

theorem contents_eq_of_reached (hc : Consistent m count) {d : Nat} (hd : Reached m d) :
    (Header.stored m' d).contents m' = (Header.stored m d).contents m := by
  obtain ⟨o, -, ho⟩ := exists_names hd
  have hlength := hc.directory_length d hd
  have himage {m : Medium} (hlength : (Header.stored m d).length = directoryFileSize) :
      (table m d).image = (Header.stored m d).contents m := by
    rw [table, Directory.held]
    exact Directory.image_ofImage ((Header.size_contents ..).trans hlength)
  rw [← himage hlength, ← himage (by rwa [h.framed.stored_eq ho]), h.table_eq d hd]

/-! ## What is planned -/

theorem creation_eq (path : String) (size : Nat) (kind : EntryKind) :
    Creation.plan m' count path size kind = Creation.plan m count path size kind := by
  unfold Creation.plan
  cases Path.splitLast path with
  | error cause => rfl
  | ok split =>
    dsimp only
    rw [h.walk_eq]
    cases hwalk : walk (table m) rootSector [] split.1 with
    | error cause => rfl
    | ok parent =>
      dsimp only
      rw [h.table_eq _ (reached_walk .root hwalk), h.bitmap_eq]

theorem plan_eq (a : NewEntry) : a.plan m' count = a.plan m count := by
  cases a with
  | file path size => exact h.creation_eq path size .file
  | directory path =>
    rw [NewEntry.plan, NewEntry.plan, Creation.planDirectory, Creation.planDirectory, h.creation_eq]

theorem removal_eq (path : String) : Removal.plan m' path = Removal.plan m path := by
  unfold Removal.plan
  cases Path.splitLast path with
  | error cause => rfl
  | ok split =>
    dsimp only
    rw [h.walk_eq]
    cases hwalk : walk (table m) rootSector [] split.1 with
    | error cause => rfl
    | ok parent =>
      have hparent := reached_walk .root hwalk
      dsimp only
      rw [h.table_eq _ hparent, Removal.planIn, Removal.planIn]
      cases hfind : (table m (Word.wide parent)).find? split.2 with
      | none => rfl
      | some e =>
        have hremovable : Removal.isRemovable m' e = Removal.isRemovable m e := by
          obtain ⟨i, hi, -⟩ := exists_slot hfind
          rw [Removal.isRemovable, Removal.isRemovable]
          by_cases hdir : e.isDirectory = true
          · rw [h.table_eq _ (.child hparent hi hdir)]
          · rw [if_neg hdir, if_neg hdir]
        dsimp only
        rw [hremovable]

/-! ## What is changed -/

theorem framed_both (ha : Framed m a) (hb : Framed m' b) {o : Owner} {s : Nat} (hs : Names m o s) :
    b.get s = a.get s ∧ ∀ i ∈ (Header.stored a s).index a, b.get i = a.get i := by
  have hs' := h.names_iff.mpr hs
  refine ⟨?_, fun i hi => ?_⟩
  · rw [(hb o s hs').1, (h.framed o s hs).1, (ha o s hs).1]
  · rw [ha.index_eq hs] at hi
    have hi' : i ∈ (Header.stored m' s).index m' := by rwa [h.framed.index_eq hs]
    rw [(hb o s hs').2 i hi', (h.framed o s hs).2 i hi, (ha o s hs).2 i hi]

section

variable (hc : Consistent m count) (hc' : Consistent m' count)
include hc hc'

section

variable {p : Nat} {d : Directory} {map : SectorMap} (ha : Rewritten m a count p d map)
  (hb : Rewritten m' b count p d map) (hp : Reached m p)
include ha hb hp

theorem table_rewritten {s : Nat} (hs : Reached m s) : table b s = table a s := by
  have hp' := h.reached_iff.mpr hp
  by_cases heq : s = p
  · rw [heq, ha.table_eq hc hp, hb.table_eq hc' hp']
  · rw [ha.table_of_ne hc hp hs heq, hb.table_of_ne hc' hp' (h.reached_iff.mpr hs) heq,
      h.table_eq s hs]

theorem bitmap_rewritten : bitmap b count = bitmap a count := by
  rw [ha.bitmap_eq hc hp, hb.bitmap_eq hc' (h.reached_iff.mpr hp)]

theorem byte_rewritten {s o : Nat} (hs : Regular m s) (ho : w s o) :
    ((Header.stored b s).contents b)[o]? = ((Header.stored a s).contents a)[o]? := by
  rw [ha.contents_eq hc hp hs, hb.contents_eq hc' (h.reached_iff.mpr hp) (h.regular_iff.mpr hs)]
  exact h.byte_eq s hs o ho

end

/-- What is made is made alike. Nothing of a new file has been written. -/
theorem made {e : NewEntry} {c : Creation} (hplan : e.plan m count = .ok c)
    (hw : ∀ s o, w' s o → w s o) (hnew : c.kind = .file → ∀ o, ¬ w' c.sector o) :
    Twins w' count (c.after m count) (c.after m' count) := by
  obtain ⟨_, hgoes⟩ := NewEntry.exists_goes hc hplan
  obtain ⟨_, hgoes'⟩ := NewEntry.exists_goes hc' ((h.plan_eq e).trans hplan)
  have hv := hgoes.serves.valid
  have hv' := hgoes'.serves.valid
  have ha := Creation.rewritten_after hc hv
  have hb := Creation.rewritten_after hc' hv'
  have hdirectory : c.directory m' = c.directory m := by
    rw [Creation.directory, Creation.directory, h.table_eq _ hv.parent]
  have hmap : c.map m' count = c.map m count := by
    rw [Creation.map, Creation.map, h.bitmap_eq]
  rw [hdirectory, hmap] at hb
  refine ⟨fun o s hs => ?_, fun s hs => ?_, h.bitmap_rewritten hc hc' ha hb hv.parent,
    fun s hs o ho => ?_⟩
  · rcases (Creation.names_after hc hv).mp hs with hs | ⟨-, rfl⟩
    · exact h.framed_both (Creation.framed_after hc hv) (Creation.framed_after hc' hv') hs
    · -- the new header and its blocks have been written on both media
      have hheld := Creation.held_after hc hv
      have hheld' := Creation.held_after hc' hv'
      obtain ⟨hstored, -, -, -, hindex⟩ := Creation.facts_of_held hv hheld
      rw [hstored, hindex]
      refine ⟨hheld.get_eq hheld' ?_, fun i hi => hheld.get_eq hheld' ?_⟩
      · rw [Creation.fileScript, Script.targets_append]
        exact List.mem_append_right _ (List.mem_singleton_self _)
      · rw [Creation.fileScript, Script.targets_append]
        exact List.mem_append_left _ (hv.fits.targets_fillScript.mem_iff.mpr hi)
  · rcases (Creation.reached_after hc hv).mp hs with hs | ⟨hkind, rfl⟩
    · exact h.table_rewritten hc hc' ha hb hv.parent hs
    · rw [Creation.table_after_new hc hv hkind, Creation.table_after_new hc' hv' hkind]
  · rcases (Creation.regular_after hc hv).mp hs with hs | ⟨hkind, rfl⟩
    · exact h.byte_rewritten hc hc' ha hb hv.parent hs (hw s o ho)
    · exact absurd ho (hnew hkind o)

theorem removed {r : Removal} (hv : r.Valid m) (hv' : r.Valid m') :
    Twins w count (r.after m count) (r.after m' count) := by
  have ha := Removal.rewritten_after hc hv
  have hb := Removal.rewritten_after hc' hv'
  have hdirectory : r.directory m' = r.directory m := by
    rw [Removal.directory, Removal.directory, h.table_eq _ hv.parent]
  have hfreed : r.freed m' = r.freed m := by
    have hs := Removal.names hv
    rw [Removal.freed, Removal.freed, Removal.header, Removal.header, h.framed.data_eq hs,
      h.framed.index_eq hs]
  have hmap : r.map m' count = r.map m count := by
    rw [Removal.map, Removal.map, h.bitmap_eq, hfreed]
  rw [hdirectory, hmap] at hb
  refine ⟨fun o s hs => ?_, fun s hs => ?_, h.bitmap_rewritten hc hc' ha hb hv.parent,
    fun s hs o ho => ?_⟩
  · exact h.framed_both (Removal.framed_after hc hv) (Removal.framed_after hc' hv')
      ((Removal.names_after hc hv).mp hs).1
  · exact h.table_rewritten hc hc' ha hb hv.parent ((Removal.reached_after hc hv).mp hs).1
  · exact h.byte_rewritten hc hc' ha hb hv.parent ((Removal.regular_after hc hv).mp hs).1 ho

theorem written {s position : Nat} {data : Array UInt8} (hs : Regular m s)
    (hw : ∀ s' o, w' s' o → w s' o ∨ (s' = s ∧ position ≤ o ∧ o < position + data.size)) :
    Twins w' count (((Header.stored m s).writeScript m position data).medium m)
      (((Header.stored m' s).writeScript m' position data).medium m') := by
  have hs' := h.regular_iff.mpr hs
  have hsame := hc.sameTree_write hs position data
  have hsame' := hc'.sameTree_write hs' position data
  refine ⟨fun o s' hnames => ?_, fun d hd => ?_, ?_, fun s' hregular o ho => ?_⟩
  · exact h.framed_both hsame.framed hsame'.framed ((hsame.names_iff hc).mp hnames)
  · have hd := (hsame.reached_iff hc).mp hd
    have hd' := h.reached_iff.mpr hd
    rw [hc.table_eq hsame.framed hd (hsame.directory d hd),
      hc'.table_eq hsame'.framed hd' (hsame'.directory d hd'), h.table_eq d hd]
  · rw [hsame.bitmap_eq hc, hsame'.bitmap_eq hc', h.bitmap_eq]
  · have hregular := (hsame.regular_iff hc).mp hregular
    rw [hc.contents_written hs hregular position data rfl,
      hc'.contents_written hs' (h.regular_iff.mpr hregular) position data rfl]
    by_cases heq : s' = s
    · subst heq
      have hsize : ((Header.stored m' s').contents m').size
          = ((Header.stored m s').contents m).size := by
        obtain ⟨d, i, hnames⟩ := hs.exists_names
        rw [Header.size_contents, Header.size_contents, h.framed.stored_eq hnames]
      rw [if_pos rfl, if_pos rfl, Bytes.getElem?_overlay, Bytes.getElem?_overlay, hsize]
      by_cases hin : position ≤ o ∧ o < position + data.size ∧
          o < ((Header.stored m s').contents m).size
      · rw [if_pos hin, if_pos hin]
      rw [if_neg hin, if_neg hin]
      rcases hw s' o ho with ho | ⟨-, hstart, hstop⟩
      · exact h.byte_eq s' hs o ho
      · -- behind the end of the file there is nothing on either medium
        rw [Array.getElem?_eq_none (by omega), Array.getElem?_eq_none (by omega)]
    · rw [if_neg heq, if_neg heq]
      exact h.byte_eq s' hregular o ((hw s' o ho).resolve_right fun h => heq h.1)

end

end Twins

end Tree

/-- A new volume is one volume, wherever it is made: there are no files in it yet. -/
theorem Formatting.twins_after (hv : Valid count) (w : Coverage) (m m' : Medium) :
    Twins w count (after m count) (after m' count) := by
  have hheld := held_after (m := m) hv
  have hheld' := held_after (m := m') hv
  obtain ⟨⟨hmap, -, -, -, hmapIndex⟩, hroot, -, -, -, hrootIndex⟩ := facts_of_held hv hheld
  have hkeep {i : Nat} (hi : i ∈ 0 :: 1 ::
      (Header.plannedIndex (sectorsFor (SectorMap.imageSize count)) (free count)
        ++ Header.plannedIndex (sectorsFor directoryFileSize) (rest count))) :
      (after m' count).get i = (after m count).get i :=
    hheld.get_eq hheld' ((targets_headerScript hv).mem_iff.mpr hi)
  refine ⟨fun o s hs => ?_, fun d hd => ?_, ?_, fun s hs => ?_⟩
  · rcases (names_after hv).mp hs with ⟨-, rfl⟩ | ⟨-, rfl⟩
    · rw [hmap, hmapIndex]
      exact ⟨hkeep (by simp [wide_mapSector]), fun i hi => hkeep (by simp [hi])⟩
    · rw [hroot, hrootIndex]
      exact ⟨hkeep (by simp [wide_rootSector]), fun i hi => hkeep (by simp [hi])⟩
  · rw [(reached_after hv).mp hd, table_after hv, table_after hv]
  · rw [bitmap_after hv, bitmap_after hv]
  · obtain ⟨d, i, e, hd, hi, -⟩ := hs
    rw [(reached_after hv).mp hd, slot?_after hv] at hi
    cases hi

end IndexedDisk
