import IndexedDisk.Proofs.Making
import Mathlib.Data.List.Induction

/-!
# Where names lead

On a well-formed tree only one list of names leads from the root to a directory, because one entry
names it (`walk_injective`). `EntryAt` says which entry a list of names ends with. Making a file
adds one such list and changes no other (`Creation.entryAt_after`).
-/

open IndexedDisk.Tree

namespace IndexedDisk

seal Tree.table

variable {m : Medium} {count : Nat}

namespace Tree

section

variable {tables : Nat → Directory} {p q : Int32} {walked before after : List String}
  {name : String}

theorem walk_append_error {cause : Refusal} (h : walk tables p walked before = .error cause) :
    walk tables p walked (before ++ after) = .error cause := by
  induction before generalizing p walked with
  | nil => cases h
  | cons name rest ih =>
    rw [List.cons_append]
    cases he : (tables (Word.wide p)).find? name with
    | none => rw [walk_none he] at h ⊢; exact h
    | some e =>
      by_cases hdir : e.isDirectory = true
      · rw [walk_directory he hdir] at h ⊢
        exact ih h
      · rw [walk_file he hdir] at h ⊢
        exact h

theorem walk_concat_eq_ok : walk tables p walked (before ++ [name]) = .ok q ↔
    ∃ p' e, walk tables p walked before = .ok p' ∧ (tables (Word.wide p')).find? name = some e ∧
      e.isDirectory = true ∧ e.sector = q := by
  cases hbefore : walk tables p walked before with
  | error cause =>
    rw [walk_append_error hbefore]
    constructor
    · rintro ⟨⟩
    · rintro ⟨_, _, ⟨⟩, -⟩
  | ok p' =>
    rw [walk_append hbefore]
    cases he : (tables (Word.wide p')).find? name with
    | none =>
      rw [walk_none he]
      constructor
      · rintro ⟨⟩
      · rintro ⟨_, e, ⟨⟩, h, -⟩
        rw [he] at h
        cases h
    | some e =>
      by_cases hdir : e.isDirectory = true
      · rw [walk_directory he hdir, walk]
        constructor
        · rintro ⟨⟩
          exact ⟨p', e, rfl, he, hdir, rfl⟩
        · rintro ⟨_, e', ⟨⟩, h, -, rfl⟩
          rw [he] at h
          cases h
          rfl
      · rw [walk_file he hdir]
        constructor
        · rintro ⟨⟩
        · rintro ⟨_, e', ⟨⟩, h, hdir', -⟩
          rw [he] at h
          cases h
          exact absurd hdir' hdir

end

theorem exists_names_of_find? {names : List String} {p : Int32} {name : String} {e : Entry}
    (hwalk : walk (table m) rootSector [] names = .ok p)
    (hfind : (table m (Word.wide p)).find? name = some e) :
    ∃ i, slot? m (Word.wide p) i = some e ∧ e.name = name ∧
      Names m (.entry (Word.wide p) i) (Word.wide e.sector) := by
  obtain ⟨i, hi, -⟩ := exists_slot hfind
  obtain ⟨-, -, -, -, hname⟩ := Directory.find?_eq_some hfind
  exact ⟨i, hi, hname, .entry (reached_walk .root hwalk) hi⟩

theorem Consistent.walk_injective (hc : Consistent m count) {names names' : List String}
    {p p' : Int32} (h : walk (table m) rootSector [] names = .ok p)
    (h' : walk (table m) rootSector [] names' = .ok p') (heq : Word.wide p = Word.wide p') :
    names = names' := by
  have hroot {names : List String} {name : String} {p : Int32}
      (hwalk : walk (table m) rootSector [] (names ++ [name]) = .ok p) :
      Word.wide p ≠ Word.wide rootSector := fun hp => by
    obtain ⟨q, e, hq, hfind, -, rfl⟩ := walk_concat_eq_ok.mp hwalk
    obtain ⟨i, -, -, howner⟩ := exists_names_of_find? hq hfind
    cases hc.names_injective howner (hp ▸ Names.root)
  induction names using List.reverseRecOn generalizing names' p p' with
  | nil =>
    obtain rfl : rootSector = p := Except.ok.inj h
    rcases List.eq_nil_or_concat names' with rfl | ⟨before, name, rfl⟩
    · rfl
    · rw [List.concat_eq_append] at h'
      exact absurd heq.symm (hroot h')
  | append_singleton before name ih =>
    rcases List.eq_nil_or_concat names' with rfl | ⟨before', name', rfl⟩
    · obtain rfl : rootSector = p' := Except.ok.inj h'
      exact absurd heq (hroot h)
    · rw [List.concat_eq_append] at h' ⊢
      obtain ⟨q, e, hq, hfind, -, rfl⟩ := walk_concat_eq_ok.mp h
      obtain ⟨q', e', hq', hfind', -, rfl⟩ := walk_concat_eq_ok.mp h'
      obtain ⟨i, hi, rfl, howner⟩ := exists_names_of_find? hq hfind
      obtain ⟨i', hi', rfl, howner'⟩ := exists_names_of_find? hq' hfind'
      rw [← heq] at howner'
      obtain ⟨hparent, rfl⟩ := Owner.entry.inj (hc.names_injective howner howner')
      rw [← hparent, hi] at hi'
      rw [ih hq hq' hparent, Option.some.inj hi']

/-- Names lead from the root to this entry. -/
def EntryAt (m : Medium) (names : List String) (e : Entry) : Prop :=
  ∃ before name p, names = before ++ [name] ∧ walk (table m) rootSector [] before = .ok p ∧
    (table m (Word.wide p)).find? name = some e

theorem entryAt_concat {before : List String} {name : String} {p : Int32} {e : Entry}
    (hwalk : walk (table m) rootSector [] before = .ok p) :
    EntryAt m (before ++ [name]) e ↔ (table m (Word.wide p)).find? name = some e := by
  constructor
  · rintro ⟨before', name', p', heq, hwalk', hfind⟩
    obtain ⟨rfl, rfl⟩ := List.append_singleton_inj.mp heq
    rw [hwalk] at hwalk'
    exact Except.ok.inj hwalk' ▸ hfind
  · exact fun hfind => ⟨before, name, p, rfl, hwalk, hfind⟩

theorem EntryAt.unique {names : List String} {e e' : Entry} (h : EntryAt m names e)
    (h' : EntryAt m names e') : e = e' := by
  obtain ⟨before, name, p, rfl, hwalk, hfind⟩ := h
  rw [entryAt_concat hwalk, hfind] at h'
  exact Option.some.inj h'

/-- A path that has no relative names leads where its names lead. -/
theorem found_eq_ok_iff {path : String} {e : Entry} : found m path = .ok e ↔
    (Path.names path).find? Path.isRelative = none ∧ EntryAt m (Path.names path) e := by
  rw [found_eq_ok]
  constructor
  · rintro ⟨p, name, ⟨parents, hsplit, hwalk⟩, hfind⟩
    obtain ⟨hrelative, hnames⟩ := Path.splitLast_eq_ok.mp hsplit
    exact ⟨hrelative, parents, name, p, hnames, hwalk, hfind⟩
  · rintro ⟨hrelative, parents, name, p, hnames, hwalk, hfind⟩
    exact ⟨p, name, ⟨parents, Path.splitLast_eq_ok.mpr ⟨hrelative, hnames⟩, hwalk⟩, hfind⟩

end Tree

/-! ## Making a file -/

namespace Creation

variable {c : Creation} (hc : Consistent m count) (hv : c.Valid m count)
  (hname : c.entry.name = c.name)
  (hnew : (table m (Word.wide c.parent)).find? c.name = none) {parents : List String}
  (hparents : walk (table m) rootSector [] parents = .ok c.parent)
include hc hv hname hnew hparents

theorem find?_after_iff {names : List String} {p : Int32} {name : String} {e : Entry}
    (hwalk : walk (table m) rootSector [] names = .ok p) :
    (table (c.after m count) (Word.wide p)).find? name = some e ↔
      (table m (Word.wide p)).find? name = some e ∨
        (names ++ [name] = parents ++ [c.name] ∧ e = c.entry) := by
  rw [find?_after hc hv hname hnew _ (reached_walk .root hwalk)]
  by_cases h : Word.wide p = Word.wide c.parent ∧ name = c.name
  · obtain ⟨hp, rfl⟩ := h
    obtain rfl := hc.walk_injective hwalk hparents hp
    rw [hparents] at hwalk
    obtain rfl := Except.ok.inj hwalk
    rw [if_pos ⟨rfl, rfl⟩, hnew]
    simp only [reduceCtorEq, Option.some.injEq, true_and, false_or]
    exact eq_comm
  · rw [if_neg h]
    refine ⟨Or.inl, fun h' => h'.resolve_right ?_⟩
    rintro ⟨heq, -⟩
    obtain ⟨rfl, rfl⟩ := List.append_singleton_inj.mp heq
    rw [hparents] at hwalk
    exact h ⟨congrArg Word.wide (Except.ok.inj hwalk).symm, rfl⟩

theorem walk_after_iff {names : List String} {q : Int32} :
    walk (table (c.after m count)) rootSector [] names = .ok q ↔
      walk (table m) rootSector [] names = .ok q ∨
        (c.kind = .directory ∧ names = parents ++ [c.name] ∧ q = c.entry.sector) := by
  induction names using List.reverseRecOn generalizing q with
  | nil =>
    rw [walk, walk]
    refine ⟨Or.inl, fun h => h.resolve_right ?_⟩
    rintro ⟨-, hnil, -⟩
    simp at hnil
  | append_singleton before name ih =>
    constructor
    · intro h
      obtain ⟨p, e, hp, hfind, hdir, rfl⟩ := walk_concat_eq_ok.mp h
      rcases ih.mp hp with hp | ⟨hkind, -, rfl⟩
      · rcases (find?_after_iff hc hv hname hnew hparents hp).mp hfind with hfind | ⟨heq, rfl⟩
        · exact .inl (walk_concat_eq_ok.mpr ⟨p, e, hp, hfind, hdir, rfl⟩)
        · exact .inr ⟨(Entry.isDirectory_named ..).mp hdir, heq, rfl⟩
      · -- the new directory is empty
        have hblank := slot?_after_new hc hv ((Entry.isDirectory_named ..).mpr hkind)
        rw [Directory.find?_eq_find?_list, list_eq_nil hblank] at hfind
        cases hfind
    · rintro (h | ⟨hkind, heq, rfl⟩)
      · obtain ⟨p, e, hp, hfind, hdir, rfl⟩ := walk_concat_eq_ok.mp h
        exact walk_concat_eq_ok.mpr ⟨p, e, ih.mpr (.inl hp),
          (find?_after_iff hc hv hname hnew hparents hp).mpr (.inl hfind), hdir, rfl⟩
      · obtain ⟨rfl, rfl⟩ := List.append_singleton_inj.mp heq
        exact walk_concat_eq_ok.mpr ⟨_, c.entry, ih.mpr (.inl hparents),
          (find?_after_iff hc hv hname hnew hparents hparents).mpr (.inr ⟨rfl, rfl⟩),
          (Entry.isDirectory_named ..).mpr hkind, rfl⟩

theorem entryAt_after {names : List String} {e : Entry} : EntryAt (c.after m count) names e ↔
    EntryAt m names e ∨ (names = parents ++ [c.name] ∧ e = c.entry) := by
  constructor
  · rintro ⟨before, name, p, rfl, hwalk, hfind⟩
    rcases (walk_after_iff hc hv hname hnew hparents).mp hwalk with hp | ⟨hkind, -, rfl⟩
    · exact ((find?_after_iff hc hv hname hnew hparents hp).mp hfind).imp_left
        (entryAt_concat hp).mpr
    · have hblank := slot?_after_new hc hv ((Entry.isDirectory_named ..).mpr hkind)
      rw [Directory.find?_eq_find?_list, list_eq_nil hblank] at hfind
      cases hfind
  · rintro (⟨before, name, p, rfl, hwalk, hfind⟩ | ⟨rfl, rfl⟩)
    · exact ⟨before, name, p, rfl,
        (walk_after_iff hc hv hname hnew hparents).mpr (.inl hwalk),
        (find?_after_iff hc hv hname hnew hparents hwalk).mpr (.inl hfind)⟩
    · exact ⟨parents, c.name, c.parent, rfl,
        (walk_after_iff hc hv hname hnew hparents).mpr (.inl hparents),
        (find?_after_iff hc hv hname hnew hparents hparents).mpr (.inr ⟨rfl, rfl⟩)⟩

end Creation

end IndexedDisk
