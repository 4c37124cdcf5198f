import IndexedDisk.Proofs.Making

/-!
# Files that are open

What holds of every open file, however it came to be open (`Opens`): exactly one entry has its
header, the header that it was opened with is the one that is stored, and its transfers go to
sectors of that entry and to no others.

* `Reachable.pos_of_find?`: ids are positive.
* `OpenFile.Current.confined_read`, `OpenFile.Current.confined_write`: where transfers go.
* `Outcome.keeps`: an id that is kept goes on standing for the same entry.
* `open_files_keep_to_their_entries`: all of this holds in every file system that a run comes to.
-/

open IndexedDisk.Tree

namespace IndexedDisk

seal Tree.table

variable {m m' : Medium} {count : Nat}

/-- Whatever faults there are, the request makes transfers of sectors with this property only. -/
def Confined {α : Type} (m : Medium) (count : Nat) (act : DiskM α) (s : Nat → Prop) : Prop :=
  ∃ script result, Follows m count act script result ∧ ∀ t ∈ script, s t.sector

namespace OpenFile.Current

variable {f : OpenFile} (hf : f.Current m) (hc : Consistent m count) {d i : Nat}
  (hnames : Names m (.entry d i) (Word.wide f.sector))
include hf hc hnames

omit hc in
theorem owns_of_mem {s : Nat} (hs : s ∈ f.header.data m ++ f.header.index m) :
    ∃ a, Owns m (.entry d i) a s := by
  rw [hf.header_eq] at hs
  exact (exists_owns_iff hnames).mpr (List.mem_cons_of_mem _ hs)

theorem confined_read (buffer : Array UInt8) :
    Confined m count (Disk.runOn buffer f.read) fun s => ∃ a, Owns m (.entry d i) a s := by
  rcases hf.follows_read hc buffer with ⟨-, h⟩ | ⟨sectors, hsub, h⟩
  · exact ⟨_, _, h, nofun⟩
  · refine ⟨_, _, h, fun t ht => ?_⟩
    obtain ⟨s, hs, rfl⟩ := List.mem_map.mp ht
    exact hf.owns_of_mem hnames (hsub hs)

theorem confined_write (data : Array UInt8) :
    Confined m count (f.write data) fun s => ∃ a, Owns m (.entry d i) a s := by
  rcases hf.follows_write hc data with ⟨-, h⟩ | h
  · exact ⟨_, _, h, nofun⟩
  · exact ⟨_, _, h, fun t ht => hf.owns_of_mem hnames
      (Header.mem_writeScript f.position data (hf.intact hc) ht)⟩

end OpenFile.Current

/-! ## Ids -/

theorem Outcome.pos {t t' : OpenTable} {r : Request} {response : Response}
    (ho : Outcome m count t r response m' t') (hs : Sound m count t)
    (hpos : ∀ id f, t.find? id = some f → 0 < id) {id : Int32} {f : OpenFile}
    (hf : t'.find? id = some f) : 0 < id := by
  cases ho with
  | failed | overlong | created | createdDirectory | openedNone | readUnknown | writtenUnknown
    | listed => exact hpos id f hf
  | removed =>
    rw [OpenTable.find?_eraseSector hs.distinct, Option.filter_eq_some_iff] at hf
    exact hpos id f hf.1
  | opened _ _ hid =>
    rw [OpenTable.find?_insert] at hf
    split at hf
    · next heq => exact heq ▸ OpenTable.pos_of_pick? hid
    · exact hpos id f hf
  | closed =>
    rw [OpenTable.find?_erase] at hf
    split at hf
    · cases hf
    · exact hpos id f hf
  | read hfind | written hfind =>
    rw [OpenTable.find?_replace] at hf
    split at hf
    · next heq => exact heq ▸ hpos _ _ hfind
    · exact hpos id f hf
  | remounted => cases hf

theorem Reachable.pos_of_find? {fs : FileSystem} (h : Reachable fs) {id : Int32} {f : OpenFile}
    (hf : fs.opened.find? id = some f) : 0 < id := by
  induction h generalizing id f with
  | format hfaults hmedium hformat =>
    obtain ⟨-, q, -, rfl⟩ := FileSystem.eq_of_format hfaults hmedium hformat
    cases hf
  | @perform fs hfs r hr ih =>
    obtain ⟨m', t', q, -, ho, hresult⟩ := hfs.healthy.hasOutcome r
    rw [hresult] at hf
    exact ho.pos hfs.healthy.sound (fun _ _ => ih) hf

/-- An id that is kept goes on standing for the same entry. -/
theorem Outcome.keeps {t t' : OpenTable} {r : Request} {response : Response}
    (ho : Outcome m count t r response m' t') (hs : Sound m count t) (hr : r.Admissible m t)
    {id : Int32} {f f' : OpenFile} (hf : t.find? id = some f) (hf' : t'.find? id = some f') :
    f'.sector = f.sector ∧ f'.header = f.header ∧ ∀ d i, Names m (.entry d i) (Word.wide f.sector) →
      Names m' (.entry d i) (Word.wide f.sector) := by
  have hc := hs.consistent
  have hsame (h : some f = some f') : f'.sector = f.sector ∧ f'.header = f.header := by
    cases h
    exact ⟨rfl, rfl⟩
  have hreplace {j : Int32} {k : Nat} {g : OpenFile} (hg : t.find? j = some g)
      (h : (t.replace j (g.seek k)).find? id = some f') :
      f'.sector = f.sector ∧ f'.header = f.header := by
    rw [OpenTable.find?_replace] at h
    split at h
    · next heq =>
      subst heq
      rw [hg] at hf h
      cases hf
      cases h
      exact ⟨rfl, rfl⟩
    · exact hsame (hf.symm.trans h)
  cases ho with
  | failed | overlong | openedNone | readUnknown | writtenUnknown | listed =>
    exact (hsame (hf.symm.trans hf')).imp_right fun h => ⟨h, fun _ _ h => h⟩
  | created hserves | createdDirectory hserves =>
    exact (hsame (hf.symm.trans hf')).imp_right fun h =>
      ⟨h, fun _ _ h => (Creation.names_after hc hserves.valid).mpr (Or.inl h)⟩
  | @removed _ r hserves =>
    rw [OpenTable.find?_eraseSector hs.distinct, hf, Option.filter_eq_some_iff] at hf'
    obtain ⟨heq, hsector⟩ := hf'
    cases heq
    exact ⟨rfl, rfl, fun d i h =>
      Removal.names_after_of_ne hc hserves.valid (by simpa using hsector) h⟩
  | opened _ _ hid =>
    rw [OpenTable.find?_insert, if_neg] at hf'
    · exact (hsame (hf.symm.trans hf')).imp_right fun h => ⟨h, fun _ _ h => h⟩
    · rintro rfl
      rw [OpenTable.find?_of_pick? hid] at hf
      cases hf
  | closed =>
    rw [OpenTable.find?_erase] at hf'
    split at hf'
    · cases hf'
    · exact (hsame (hf.symm.trans hf')).imp_right fun h => ⟨h, fun _ _ h => h⟩
  | read hfind => exact (hreplace hfind hf').imp_right fun h => ⟨h, fun _ _ h => h⟩
  | @written id data g k hfind hk =>
    have hsame := hc.sameTree_write (hr g hfind) g.position data
    rw [← (hs.current _ _ hfind).header_eq] at hsame
    exact (hreplace hfind hf').imp_right fun h => ⟨h, fun _ _ h => (hsame.names_iff hc).mpr h⟩
  | remounted => cases hf'

/-! ## The table -/

/-- An open file is that of the entry `e` in slot `i` of the directory at `d`. -/
structure Opens (m : Medium) (count : Nat) (f : OpenFile) (d i : Nat) (e : Entry) : Prop where
  reached : Reached m d
  slot : slot? m d i = some e
  sector_eq : f.sector = e.sector
  /-- No other entry has this header. -/
  unique : ∀ d' i' e', Reached m d' → slot? m d' i' = some e' → e'.sector = f.sector →
    d' = d ∧ i' = i
  header_eq : f.header = Header.stored m (Word.wide f.sector)
  position_le : f.position ≤ f.length
  read : ∀ buffer, Confined m count (Disk.runOn buffer f.read) fun s =>
    ∃ a, Owns m (.entry d i) a s
  write : ∀ data, Confined m count (f.write data) fun s => ∃ a, Owns m (.entry d i) a s
  /-- Nothing else uses the sectors of the entry. -/
  alone : ∀ a s, Owns m (.entry d i) a s → ∀ o a', Owns m o a' s → o = .entry d i

theorem OpenFile.Current.opens {f : OpenFile} (hf : f.Current m) (hc : Consistent m count) :
    ∃ d i e, Opens m count f d i e := by
  obtain ⟨d, i, hnames⟩ := hf.named
  obtain ⟨e, hd, hi, hsector⟩ := names_entry_iff.mp hnames
  refine ⟨d, i, e, hd, hi, (Word.wide_injective hsector).symm, fun d' i' e' hd' hi' he' => ?_,
    hf.header_eq, hf.position_le, hf.confined_read hc hnames, hf.confined_write hc hnames,
    fun a s ha o a' ha' => (hc.unique _ _ _ _ _ ha' ha).1⟩
  exact Owner.entry.inj (hc.names_injective (he' ▸ .entry hd' hi') hnames)

/-- The open files of a file system, and what requests do to them. -/
structure FileSystem.Orderly (fs : FileSystem) : Prop where
  opens : ∀ id f, fs.opened.find? id = some f →
    0 < id ∧ ∃ d i e, Opens fs.disk.medium fs.disk.count f d i e
  /-- A file that is found is opened, if one of the draws can be its id. -/
  opened : ∀ path draws e, found fs.disk.medium path = .ok e →
    (∃ id ∈ draws, 0 < id ∧ fs.opened.find? id = none) →
    ∃ id ∈ draws, ((Request.openFile path draws).perform fs).1 = .opened (some id)
  /-- A file is opened under a new id. -/
  openFile : ∀ path draws id, ((Request.openFile path draws).perform fs).1 = .opened (some id) →
    fs.opened.find? id = none ∧
    (∃ e, found fs.disk.medium path = .ok e ∧
      ((Request.openFile path draws).perform fs).2.opened.find? id
        = some (.opened fs.disk.medium e.sector)) ∧
    ∀ j ≠ id, ((Request.openFile path draws).perform fs).2.opened.find? j = fs.opened.find? j
  /-- A file that is removed is closed under all its ids. -/
  remove : ∀ path, ((Request.remove path).perform fs).1 = .done →
    ∃ e, found fs.disk.medium path = .ok e ∧
      ∀ id f, ((Request.remove path).perform fs).2.opened.find? id = some f ↔
        fs.opened.find? id = some f ∧ f.sector ≠ e.sector
  /-- An id that is kept goes on standing for the same entry. -/
  keeps : ∀ r : Request, r.Admissible fs.disk.medium fs.opened → ∀ id f f',
    fs.opened.find? id = some f → (r.perform fs).2.opened.find? id = some f' →
    f'.sector = f.sector ∧ f'.header = f.header ∧
      ∀ d i, Names fs.disk.medium (.entry d i) (Word.wide f.sector) →
        Names (r.perform fs).2.disk.medium (.entry d i) (Word.wide f.sector)

/--
**Open files keep to their entries.** In a file system that a run comes to, each id is positive and
stands for a file that is open as the tree has it, and whose transfers go to sectors of one entry.
Opening a file that is there takes an id that was not in use; removing one drops the ids that stand
for it; no other id is touched by either. Whatever is requested, an id that is kept stands for the
same entry afterwards.
-/
theorem open_files_keep_to_their_entries {fs : FileSystem} (h : Reachable fs) : fs.Orderly where
  opens id f hf :=
    ⟨h.pos_of_find? hf, (h.healthy.sound.current id f hf).opens h.healthy.sound.consistent⟩
  opened path draws e hfound hdraws := by
    obtain ⟨id, hmem, hpick⟩ := OpenTable.exists_pick? hdraws
    obtain ⟨q, -, heq⟩ := h.healthy.perform_openFile hfound hpick
    exact ⟨id, hmem, congrArg Prod.fst heq⟩
  openFile path draws id hresponse := by
    obtain ⟨m', t', q, -, ho, hresult⟩ := h.healthy.hasOutcome (.openFile path draws)
    rw [hresponse] at ho
    rw [hresult]
    cases ho with
    | opened hleads hfind hid =>
      exact ⟨OpenTable.find?_of_pick? hid, ⟨_, found_eq_ok.mpr ⟨_, _, hleads, hfind⟩,
        OpenTable.find?_insert.trans (if_pos rfl)⟩,
        fun j hj => OpenTable.find?_insert.trans (if_neg hj)⟩
    | listed hr => exact absurd hr (by simp)
  remove path hresponse := by
    obtain ⟨m', t', q, -, ho, hresult⟩ := h.healthy.hasOutcome (.remove path)
    rw [hresponse] at ho
    rw [hresult]
    cases ho with
    | @removed _ r hserves =>
      refine ⟨r.entry, found_eq_ok.mpr ⟨_, hserves.leads⟩, fun id f => ?_⟩
      rw [OpenTable.find?_eraseSector h.healthy.sound.distinct, Option.filter_eq_some_iff]
      simp
    | listed hr => exact absurd hr (by simp)
  keeps r hr id f f' hf hf' := by
    obtain ⟨m', t', q, -, ho, hresult⟩ := h.healthy.hasOutcome r
    rw [hresult] at hf' ⊢
    exact ho.keeps h.healthy.sound hr hf hf'

/-- A file with 200 bytes is open in a new volume. -/
theorem open_files_keep_to_their_entries_first :
    ∃ fs f, Reachable fs ∧ fs.opened.find? 5 = some f ∧ f.length = 200 ∧ fs.Orderly := by
  obtain ⟨fs, f, hfs, hf, hlength⟩ := exists_reachable_open
  exact ⟨fs, f, hfs, hf, hlength, open_files_keep_to_their_entries hfs⟩

end IndexedDisk
