import IndexedDisk.Proofs.NewEntries

/-!
# New entries in either order

Two entries whose paths do not lie on one another can be made in either order. What is in the way of
the second is in its way without the first as well (`Goes.obstacle_after`), and the second is not in
the way of the first (`Free.after`). Either order takes the same sectors, which are the lowest free
ones (`bitmap_after_both`), and makes the same files (`recorded_after_both`), although the sectors
of each and the slots of the two may be other ones.
-/

open IndexedDisk.Tree

namespace IndexedDisk

seal Tree.table

variable {m : Medium} {count : Nat}

namespace NewEntry

variable {a b : NewEntry} {c : Creation} {parents : List String}

/-- What is in the way of an entry stays in its way, unless it lies below the one that is made. -/
theorem Goes.obstacle_after (hgoes : a.Goes m count c parents) (hc : Consistent m count)
    (hab : ¬ Path.names a.path <+: Path.names b.path) {k : Nat} {cause : Refusal}
    (h : Obstacle m count b.path b.size k cause) :
    Obstacle (c.after m count) count b.path b.size k cause := by
  have hv := hgoes.serves.valid
  cases h with
  | relative h => exact .relative h
  | noName h => exact .noName h
  | @missing before name after p hpath hafter hbefore h =>
    refine .missing hpath hafter ((hgoes.walk_after_iff hc).mpr (.inl hbefore)) ?_
    refine Option.eq_none_iff_forall_ne_some.mpr fun e he => ?_
    rcases (hgoes.find?_after_iff hc hbefore).mp he with he | ⟨heq, -⟩
    · rw [h] at he
      cases he
    · refine hab ⟨after, ?_⟩
      rw [hpath, ← heq, List.append_assoc, List.singleton_append]
  | notADirectory hpath hafter hbefore h hfile =>
    exact .notADirectory hpath hafter ((hgoes.walk_after_iff hc).mpr (.inl hbefore))
      ((hgoes.find?_after_iff hc hbefore).mpr (.inl h)) hfile
  | taken hleads h =>
    obtain ⟨before, hsplit, hwalk⟩ := hleads
    exact .taken (hgoes.leadsTo_after hc ⟨before, hsplit, hwalk⟩)
      ((hgoes.find?_after_iff hc hwalk).mpr (.inl h))
  | noFreeSector h =>
    have hnil : (bitmap m count).free = [] := SectorMap.free_eq_nil_iff.mpr h
    have hnil' : (bitmap (c.after m count) count).free = [] := by
      rw [hgoes.free_after hc, hnil, List.drop_nil]
    exact .noFreeSector (SectorMap.free_eq_nil_iff.mp hnil')
  | nameTooLong hname h => exact .nameTooLong hname h
  | nul hname h => exact .nul hname h
  | directoryFull hleads h =>
    refine .directoryFull (hgoes.leadsTo_after hc hleads) fun i hi => ?_
    rw [Creation.slot?_after hc hv _ hleads.reached]
    split
    · exact nofun
    · exact h i hi
  | fileTooLarge h => exact .fileTooLarge h
  | noSpace h =>
    refine .noSpace (Nat.lt_of_le_of_lt ?_ h)
    rw [hgoes.free_after hc, List.length_drop]
    exact Nat.sub_le ..

theorem Free.of_after (hc : Consistent m count) (hgoes : a.Goes m count c parents)
    (hab : ¬ Path.names a.path <+: Path.names b.path) (hb : b.Free (c.after m count) count) :
    b.Free m count :=
  ⟨hb.rooted, fun k cause h => hb.clear k cause (hgoes.obstacle_after hc hab h)⟩

theorem Free.need_le (ha : a.Free m count) : a.need ≤ (bitmap m count).free.length :=
  Nat.le_of_not_lt fun h => ha.clear _ _ (.noSpace h)

theorem Free.after {c' : Creation} {parents' : List String} (hc : Consistent m count)
    (ha : a.Free m count) (hgoes : a.Goes m count c parents) (hgoes' : b.Goes m count c' parents')
    (hba : ¬ Path.names b.path <+: Path.names a.path)
    (hroom : a.need + b.need ≤ (bitmap m count).free.length)
    (hslot : ∃ i < directorySlots, slot? (c'.after m count) (Word.wide c.parent) i = none) :
    a.Free (c'.after m count) count := by
  have hlength : a.need ≤ (bitmap (c'.after m count) count).free.length := by
    rw [hgoes'.free_after hc, List.length_drop]
    omega
  have hleads := hgoes'.leadsTo_after hc hgoes.serves.leads
  -- the names before still lead to the directory
  have hwalk (cause : Refusal) : ¬ Obstacle (c'.after m count) count a.path a.size 2 cause := by
    intro h
    have herror := h.walk_eq_error
    rw [hgoes.names_eq, List.dropLast_concat,
      (hgoes'.walk_after_iff hc).mpr (.inl hgoes.walk_eq)] at herror
    cases herror
  refine ⟨ha.rooted, fun k cause h => ?_⟩
  have h' := h
  cases h with
  | relative h => exact ha.clear _ _ (.relative h)
  | noName h => exact ha.clear _ _ (.noName h)
  | missing => exact hwalk _ h'
  | notADirectory => exact hwalk _ h'
  | taken hleads' h =>
    obtain ⟨rfl, rfl⟩ := hleads.unique hleads'
    rcases (hgoes'.find?_after_iff hc hgoes.walk_eq).mp h with h | ⟨heq, -⟩
    · rw [hgoes.new] at h
      cases h
    · rw [← hgoes.names_eq] at heq
      exact hba ⟨[], by rw [heq, List.append_nil]⟩
  | noFreeSector h =>
    have hnil : (bitmap (c'.after m count) count).free = [] := SectorMap.free_eq_nil_iff.mpr h
    rw [hnil, List.length_nil, need] at hlength
    omega
  | nameTooLong hname h => exact ha.clear _ _ (.nameTooLong hname h)
  | nul hname h => exact ha.clear _ _ (.nul hname h)
  | directoryFull hleads' h =>
    obtain ⟨rfl, -⟩ := hleads.unique hleads'
    obtain ⟨i, hi, hfree⟩ := hslot
    exact h i hi hfree
  | fileTooLarge h => exact ha.clear _ _ (.fileTooLarge h)
  | noSpace h => exact absurd h (Nat.not_lt.mpr hlength)

theorem exists_slot_swap {c' : Creation} (hc : Consistent m count) (hv : c.Valid m count)
    (hv' : c'.Valid m count)
    (h : ∃ i < directorySlots, slot? (c.after m count) (Word.wide c'.parent) i = none) :
    ∃ i < directorySlots, slot? (c'.after m count) (Word.wide c.parent) i = none := by
  by_cases hother : Word.wide c.parent = Word.wide c'.parent ∧ c.slot = c'.slot
  · obtain ⟨i, hi, hfree⟩ := h
    rw [← hother.1, Creation.slot?_after hc hv _ hv.parent] at hfree
    split at hfree
    · cases hfree
    next hne =>
      refine ⟨i, hi, ?_⟩
      rwa [Creation.slot?_after hc hv' _ hv.parent, if_neg]
      rintro ⟨-, rfl⟩
      exact hne ⟨rfl, hother.2.symm⟩
  · refine ⟨c.slot, hv.slot_lt, ?_⟩
    rw [Creation.slot?_after hc hv' _ hv.parent, if_neg hother, hv.slot_free]

/-- Two entries that can be made one after the other can be made in the other order. -/
theorem exists_plan_swap {cb : Creation} (hc : Consistent m count)
    (hab : ¬ Path.names a.path <+: Path.names b.path)
    (hba : ¬ Path.names b.path <+: Path.names a.path) (ha : a.plan m count = .ok c)
    (hb : b.plan (c.after m count) count = .ok cb) :
    ∃ c' ca, b.plan m count = .ok c' ∧ a.plan (c'.after m count) count = .ok ca := by
  obtain ⟨parents, hgoes⟩ := exists_goes hc ha
  have hfree := exists_plan_iff.mp ⟨cb, hb⟩
  obtain ⟨c', hc'⟩ := exists_plan_iff.mpr (hfree.of_after hc hgoes hab)
  obtain ⟨parents', hgoes'⟩ := exists_goes hc hc'
  have hneed := (exists_plan_iff.mp ⟨c, ha⟩).need_le
  have hneed' := hfree.need_le
  rw [hgoes.free_after hc, List.length_drop] at hneed'
  have hslot : ∃ i < directorySlots, slot? (c.after m count) (Word.wide c'.parent) i = none := by
    by_contra hnone
    have hleads := hgoes.leadsTo_after hc hgoes'.serves.leads
    exact hfree.clear _ _ (.directoryFull hleads fun i hi heq => hnone ⟨i, hi, heq⟩)
  obtain ⟨ca, hca⟩ := exists_plan_iff.mpr <| (exists_plan_iff.mp ⟨c, ha⟩).after hc hgoes hgoes' hba
    (by omega) (exists_slot_swap hc hgoes.serves.valid hgoes'.serves.valid hslot)
  exact ⟨c', ca, hc', hca⟩

end NewEntry

namespace Tree

/-- A file of this kind and length is at the end of the names. -/
def Recorded (m : Medium) (names : List String) (kind : EntryKind) (length : Nat) : Prop :=
  ∃ e, EntryAt m names e ∧ e.kind = kind ∧ (Header.stored m (Word.wide e.sector)).length = length

end Tree

namespace NewEntry

variable {a b : NewEntry} {c : Creation}

theorem Goes.recorded_after {parents : List String} (hgoes : a.Goes m count c parents)
    (hc : Consistent m count) {names : List String} {kind : EntryKind} {length : Nat} :
    Recorded (c.after m count) names kind length ↔ Recorded m names kind length ∨
      (names = Path.names a.path ∧ kind = a.kind ∧ length = a.size) := by
  have hv := hgoes.serves.valid
  have hstored {names : List String} {e : Entry} (h : EntryAt m names e) :
      Header.stored (c.after m count) (Word.wide e.sector)
        = Header.stored m (Word.wide e.sector) := by
    obtain ⟨before, name, p, -, hwalk, hfind⟩ := h
    obtain ⟨i, -, -, howner⟩ := exists_names_of_find? hwalk hfind
    exact (Creation.framed_after hc hv).stored_eq howner
  have hlength : (Header.stored (c.after m count) (Word.wide c.entry.sector)).length = a.size := by
    have hsector : Word.wide c.entry.sector = c.sector := Creation.wide_sector hc hv
    rw [hsector, (Creation.facts_of_held hv (Creation.held_after hc hv)).1, Creation.header,
      hv.fits.length_planned, hgoes.serves.size_eq]
  have hkind : c.entry.kind = a.kind := by
    rw [Creation.entry, Entry.kind_named, hgoes.serves.kind_eq]
  have hentry {e : Entry} : EntryAt (c.after m count) names e ↔
      EntryAt m names e ∨ (names = Path.names a.path ∧ e = c.entry) := by
    rw [hgoes.names_eq]
    exact Creation.entryAt_after hc hv hgoes.name_eq hgoes.new hgoes.walk_eq
  constructor
  · rintro ⟨e, he, rfl, rfl⟩
    rcases hentry.mp he with he | ⟨hnames, rfl⟩
    · exact .inl ⟨e, he, rfl, (congrArg Header.length (hstored he)).symm⟩
    · exact .inr ⟨hnames, hkind, hlength⟩
  · rintro (⟨e, he, rfl, rfl⟩ | ⟨hnames, rfl, rfl⟩)
    · exact ⟨e, hentry.mpr (.inl he), rfl, congrArg Header.length (hstored he)⟩
    · exact ⟨c.entry, hentry.mpr (.inr ⟨hnames, rfl⟩), hkind, hlength⟩

theorem bitmap_after_both {cb : Creation} (hc : Consistent m count) (ha : a.plan m count = .ok c)
    (hb : b.plan (c.after m count) count = .ok cb) :
    bitmap (cb.after (c.after m count) count) count
      = (bitmap m count).setAll ((bitmap m count).free.take (a.need + b.need)) true := by
  obtain ⟨parents, hgoes⟩ := exists_goes hc ha
  have hc' := Creation.consistent_after hc hgoes.serves.valid
  obtain ⟨parents', hgoes'⟩ := exists_goes hc' hb
  rw [hgoes'.bitmap_after hc', hgoes.free_after hc, hgoes.bitmap_after hc, List.take_add,
    SectorMap.setAll_append]

theorem recorded_after_both {cb : Creation} (hc : Consistent m count) (ha : a.plan m count = .ok c)
    (hb : b.plan (c.after m count) count = .ok cb) {names : List String} {kind : EntryKind}
    {length : Nat} : Recorded (cb.after (c.after m count) count) names kind length ↔
      Recorded m names kind length ∨
        (names = Path.names a.path ∧ kind = a.kind ∧ length = a.size) ∨
        (names = Path.names b.path ∧ kind = b.kind ∧ length = b.size) := by
  obtain ⟨parents, hgoes⟩ := exists_goes hc ha
  have hc' := Creation.consistent_after hc hgoes.serves.valid
  obtain ⟨parents', hgoes'⟩ := exists_goes hc' hb
  rw [hgoes'.recorded_after hc', hgoes.recorded_after hc, or_assoc]

theorem exists_plans_of_done {fs : FileSystem} (h : fs.Healthy)
    (ha : (a.request.perform fs).1 = .done)
    (hb : (b.request.perform (a.request.perform fs).2).1 = .done) : ∃ ca cb q,
      a.plan fs.disk.medium fs.disk.count = .ok ca ∧
      b.plan (ca.after fs.disk.medium fs.disk.count) fs.disk.count = .ok cb ∧
      (b.request.perform (a.request.perform fs).2).2.disk = ⟨cb.after (ca.after fs.disk.medium
        fs.disk.count) fs.disk.count, fs.disk.count, q⟩ := by
  obtain ⟨ca, hca⟩ := exists_plan_of_done h ha
  obtain ⟨q, -, heq⟩ := perform_of_plan h hca
  have h' := h.step a.request (a.admissible _ _)
  rw [heq] at hb h' ⊢
  obtain ⟨cb, hcb⟩ := exists_plan_of_done h' hb
  obtain ⟨q', -, heq'⟩ := perform_of_plan h' hcb
  rw [heq']
  exact ⟨ca, cb, q', hca, hcb, rfl⟩

theorem done_of_plans {fs : FileSystem} {cb : Creation} (h : fs.Healthy)
    (ha : a.plan fs.disk.medium fs.disk.count = .ok c)
    (hb : b.plan (c.after fs.disk.medium fs.disk.count) fs.disk.count = .ok cb) :
    (a.request.perform fs).1 = .done ∧
      (b.request.perform (a.request.perform fs).2).1 = .done := by
  obtain ⟨q, -, heq⟩ := perform_of_plan h ha
  have h' := h.step a.request (a.admissible _ _)
  rw [heq] at h' ⊢
  obtain ⟨q', -, heq'⟩ := perform_of_plan h' hb
  rw [heq']
  exact ⟨rfl, rfl⟩

end NewEntry

/--
**New entries can be made in either order.** If two entries whose paths do not lie on one another
can be made one after the other, they can be made in the other order. The same sectors are then in
use, as many are free, and the same paths name files of the same kinds and lengths.
-/
theorem new_entries_commute {fs : FileSystem} (h : Reachable fs) (a b : NewEntry)
    (hab : ¬ Path.names a.path <+: Path.names b.path)
    (hba : ¬ Path.names b.path <+: Path.names a.path)
    (ha : (a.request.perform fs).1 = .done)
    (hb : (b.request.perform (a.request.perform fs).2).1 = .done) :
    (b.request.perform fs).1 = .done ∧
    (a.request.perform (b.request.perform fs).2).1 = .done ∧
    bitmap (a.request.perform (b.request.perform fs).2).2.disk.medium fs.disk.count
      = bitmap (b.request.perform (a.request.perform fs).2).2.disk.medium fs.disk.count ∧
    (Request.freeSectors.perform (a.request.perform (b.request.perform fs).2).2).1
      = (Request.freeSectors.perform (b.request.perform (a.request.perform fs).2).2).1 ∧
    ∀ names kind length,
      Recorded (a.request.perform (b.request.perform fs).2).2.disk.medium names kind length ↔
        Recorded (b.request.perform (a.request.perform fs).2).2.disk.medium names kind length := by
  have hc := h.healthy.sound.consistent
  obtain ⟨ca, cb, q, hca, hcb, hdisk⟩ := NewEntry.exists_plans_of_done h.healthy ha hb
  obtain ⟨cb', ca', hcb', hca'⟩ := NewEntry.exists_plan_swap hc hab hba hca hcb
  obtain ⟨hb', ha'⟩ := NewEntry.done_of_plans h.healthy hcb' hca'
  obtain ⟨_, _, q', h₁, h₂, hdisk'⟩ := NewEntry.exists_plans_of_done h.healthy hb' ha'
  obtain rfl := Except.ok.inj (hcb'.symm.trans h₁)
  obtain rfl := Except.ok.inj (hca'.symm.trans h₂)
  have hhealthy := (h.healthy.step a.request (a.admissible _ _)).step b.request (b.admissible _ _)
  have hhealthy' := (h.healthy.step b.request (b.admissible _ _)).step a.request (a.admissible _ _)
  have hbitmap := NewEntry.bitmap_after_both hc hca hcb
  have hbitmap' := NewEntry.bitmap_after_both hc hcb' hca'
  rw [Nat.add_comm, ← hbitmap] at hbitmap'
  refine ⟨hb', ha', ?_, ?_, fun names kind length => ?_⟩
  · rw [hdisk, hdisk', hbitmap']
  · rw [hhealthy.perform_freeSectors, hhealthy'.perform_freeSectors, hdisk, hdisk']
    dsimp only
    rw [hbitmap']
  · rw [hdisk, hdisk']
    dsimp only
    rw [NewEntry.recorded_after_both hc hca hcb, NewEntry.recorded_after_both hc hcb' hca']
    exact or_congr_right or_comm

/-- In a new volume there can be a file and then a directory, or first the directory. -/
theorem new_entries_commute_sixteen : ∃ fs, Reachable fs ∧
    ¬ Path.names "/a" <+: Path.names "/d" ∧ ¬ Path.names "/d" <+: Path.names "/a" ∧
    ((Request.create "/a" 200).perform fs).1 = .done ∧
    ((Request.createDirectory "/d").perform ((Request.create "/a" 200).perform fs).2).1 = .done ∧
    ((Request.createDirectory "/d").perform fs).1 = .done ∧
    ((Request.create "/a" 200).perform ((Request.createDirectory "/d").perform fs).2).1
      = .done := by
  obtain ⟨m, q, hq, hc, hfs⟩ := exists_reachable_sixteen
  obtain ⟨c, hc₁, hslot⟩ : ∃ c, Creation.plan (Formatting.after m 16) 16 "/a" 200 .file = .ok c ∧
      c.slot = 0 := ⟨_, Formatting.plan_sixteen m (by decide), rfl⟩
  obtain ⟨c', hc₂, hparent⟩ : ∃ c, Creation.planDirectory (Formatting.after m 16) 16 "/d" = .ok c ∧
      c.parent = rootSector := ⟨_, Formatting.planDirectory_sixteen m, rfl⟩
  have hplan : (NewEntry.file "/a" 200).plan (Formatting.after m 16) 16 = .ok c := hc₁
  have hplan' : (NewEntry.directory "/d").plan (Formatting.after m 16) 16 = .ok c' := hc₂
  obtain ⟨parents, hgoes⟩ := NewEntry.exists_goes hc hplan
  obtain ⟨parents', hgoes'⟩ := NewEntry.exists_goes hc hplan'
  have hab : ¬ Path.names "/a" <+: Path.names "/d" := by decide
  have hba : ¬ Path.names "/d" <+: Path.names "/a" := by decide
  have hroom : (NewEntry.directory "/d").need + (NewEntry.file "/a" 200).need
      ≤ (bitmap (Formatting.after m 16) 16).free.length := by
    rw [Formatting.bitmap_after Formatting.valid_sixteen]
    decide
  have hunused : slot? (c.after (Formatting.after m 16) 16) (Word.wide c'.parent) 1 = none := by
    rw [Creation.slot?_after hc hgoes.serves.valid _ hgoes'.serves.valid.parent, hslot,
      if_neg (fun h => absurd h.2 (by decide)), hparent,
      Formatting.slot?_after Formatting.valid_sixteen]
  have hfree := (NewEntry.exists_plan_iff.mp ⟨c', hplan'⟩).after hc hgoes' hgoes hab hroom
    ⟨1, by decide, hunused⟩
  obtain ⟨cb, hcb⟩ := NewEntry.exists_plan_iff.mpr hfree
  obtain ⟨ha, hb⟩ := NewEntry.done_of_plans hfs.healthy hplan hcb
  obtain ⟨hb', ha', -⟩ := new_entries_commute hfs (.file "/a" 200) (.directory "/d") hab hba ha hb
  exact ⟨_, hfs, hab, hba, ha, hb, hb', ha'⟩

end IndexedDisk
