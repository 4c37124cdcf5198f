import IndexedDisk.FileSystem

/-!
# Tables of open files

What each change to a table of open files does to the file of an id. When files are closed by their
sector, the table must have no id twice, or a file that was hidden would come to light
(`find?_eraseSector`).
-/

namespace IndexedDisk

namespace OpenTable

variable {t : OpenTable} {id j : Int32} {f : OpenFile}

/-- No id stands for two files. -/
def Distinct (t : OpenTable) : Prop := (t.files.map (·.1)).Nodup

theorem find?_insert : (t.insert id f).find? j = if j = id then some f else t.find? j := by
  rw [find?, insert, List.lookup_cons]
  by_cases h : j = id
  · rw [if_pos h, h, beq_self_eq_true]
  · rw [if_neg h, beq_eq_false_iff_ne.mpr h]
    rfl

theorem find?_replace :
    (t.replace id f).find? j = if j = id then (t.find? id).map fun _ => f else t.find? j := by
  obtain ⟨files⟩ := t
  simp only [find?, replace]
  induction files with
  | nil => split <;> rfl
  | cons entry files ih =>
    obtain ⟨k, g⟩ := entry
    by_cases hk : k = id
    · subst hk
      by_cases hj : j = k
      · subst hj
        simp
      · rw [if_neg hj] at ih ⊢
        simp [List.lookup_cons, beq_eq_false_iff_ne.mpr hj, ih]
    · simp only [List.map_cons, if_neg hk, List.lookup_cons]
      by_cases hj : j = k
      · subst hj
        simp [hk]
      · have hid : (id == k) = false := beq_eq_false_iff_ne.mpr (Ne.symm hk)
        simp only [beq_eq_false_iff_ne.mpr hj, hid, ih]

theorem find?_erase : (t.erase id).find? j = if j = id then none else t.find? j := by
  obtain ⟨files⟩ := t
  simp only [find?, erase]
  induction files with
  | nil => split <;> rfl
  | cons entry files ih =>
    obtain ⟨k, g⟩ := entry
    by_cases hk : k = id
    · subst hk
      rw [List.filter_cons_of_neg (by simp), ih]
      by_cases hj : j = k
      · rw [if_pos hj, if_pos hj]
      · rw [if_neg hj, if_neg hj, List.lookup_cons, beq_eq_false_iff_ne.mpr hj]
    · rw [List.filter_cons_of_pos (by simpa using hk), List.lookup_cons, List.lookup_cons, ih]
      by_cases hj : j = k
      · subst hj
        simp [hk]
      · rw [beq_eq_false_iff_ne.mpr hj]

theorem find?_eq_none : t.find? id = none ↔ id ∉ t.files.map (·.1) := by
  rw [find?, List.lookup_eq_none_iff]
  constructor
  · intro h hmem
    obtain ⟨entry, hentry, rfl⟩ := List.mem_map.mp hmem
    simpa using h entry hentry
  · intro h entry hentry
    refine bne_iff_ne.mpr ?_
    rintro rfl
    exact h (List.mem_map_of_mem hentry)

theorem find?_eq_some (h : t.Distinct) : t.find? id = some f ↔ (id, f) ∈ t.files := by
  obtain ⟨files⟩ := t
  simp only [find?, Distinct] at *
  induction files with
  | nil => exact ⟨nofun, nofun⟩
  | cons entry files ih =>
    obtain ⟨k, g⟩ := entry
    obtain ⟨hk, hfiles⟩ := List.nodup_cons.mp h
    rw [List.lookup_cons, List.mem_cons]
    by_cases hid : id = k
    · subst hid
      simp only [beq_self_eq_true, Option.some.injEq, Prod.mk.injEq, true_and]
      refine ⟨fun hg => Or.inl hg.symm, fun hmem => hmem.elim Eq.symm fun hmem => ?_⟩
      exact absurd (List.mem_map_of_mem hmem) hk
    · rw [beq_eq_false_iff_ne.mpr hid]
      simp only [ih hfiles, Prod.mk.injEq, hid, false_and, false_or]

theorem find?_eraseSector (h : t.Distinct) {sector : Int32} :
    (t.eraseSector sector).find? id = (t.find? id).filter (·.sector ≠ sector) := by
  have herase : (t.eraseSector sector).Distinct := h.sublist (List.filter_sublist.map _)
  apply Option.ext
  intro f
  rw [find?_eq_some herase, eraseSector, List.mem_filter, ← find?_eq_some h,
    Option.filter_eq_some_iff]

theorem distinct_insert (h : t.Distinct) (hid : t.find? id = none) : (t.insert id f).Distinct :=
  List.nodup_cons.mpr ⟨find?_eq_none.mp hid, h⟩

theorem distinct_replace (h : t.Distinct) : (t.replace id f).Distinct := by
  have hids : (t.replace id f).files.map (·.1) = t.files.map (·.1) := by
    rw [replace, List.map_map]
    refine List.map_congr_left fun entry _ => ?_
    simp only [Function.comp_apply]
    split
    · rename_i heq
      exact heq.symm
    · rfl
  rw [Distinct, hids]
  exact h

theorem distinct_erase (h : t.Distinct) : (t.erase id).Distinct :=
  h.sublist (List.filter_sublist.map _)

theorem distinct_eraseSector (h : t.Distinct) (sector : Int32) : (t.eraseSector sector).Distinct :=
  h.sublist (List.filter_sublist.map _)

theorem pos_of_pick? {draws : List Int32} (h : t.pick? draws = some id) : 0 < id := by
  have h := List.find?_some h
  simp only [Bool.and_eq_true, decide_eq_true_eq] at h
  exact h.1

theorem find?_of_pick? {draws : List Int32} (h : t.pick? draws = some id) : t.find? id = none := by
  have h := List.find?_some h
  simp only [Bool.and_eq_true, Option.isNone_iff_eq_none] at h
  exact h.2

theorem exists_pick? {draws : List Int32} (h : ∃ id ∈ draws, 0 < id ∧ t.find? id = none) :
    ∃ id ∈ draws, t.pick? draws = some id := by
  obtain ⟨id, hmem, hpos, hid⟩ := h
  have hsome : (t.pick? draws).isSome :=
    List.find?_isSome.mpr ⟨id, hmem, by simp [hpos, hid]⟩
  obtain ⟨id', hpick⟩ := Option.isSome_iff_exists.mp hsome
  exact ⟨id', List.mem_of_find?_eq_some hpick, hpick⟩

end OpenTable

end IndexedDisk
