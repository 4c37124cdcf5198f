import IndexedDisk.Proofs.NewEntries

/-!
# Names that tell entries apart

In every tree that a run comes to, the entries of a directory have different names, and each name
can stand in a path (`Reachable.wellNamed`). A list of such names can be written as a path, from
which it is read back (`Path.names_ofNames`).
-/

open IndexedDisk.Tree

namespace IndexedDisk

seal Tree.table

/-! ## Names in paths -/

namespace Path

/-- A name that can stand in a path. -/
structure Plain (name : String) : Prop where
  ne_empty : name ≠ ""
  slash_not_mem : '/' ∉ name.toList
  not_relative : ¬ isRelative name = true

theorem plain_of_mem_names {path name : String} (hmem : name ∈ names path)
    (hrelative : (names path).find? isRelative = none) : Plain name where
  ne_empty := ne_empty_of_mem_names hmem
  slash_not_mem := by
    obtain ⟨piece, hpiece, rfl⟩ := List.mem_map.mp hmem
    rw [String.toList_ofList]
    exact slash_not_mem_of_mem_pieces (List.mem_filter.mp hpiece).1
  not_relative := List.find?_eq_none.mp hrelative name hmem

theorem pieces_append_slash {a : List Char} (ha : '/' ∉ a) (b : List Char) :
    pieces (a ++ '/' :: b) = a :: pieces b := by
  induction a with
  | nil => rw [List.nil_append, pieces, if_pos rfl]
  | cons c a ih =>
    obtain ⟨hc, ha⟩ := not_or.mp fun h => ha (List.mem_cons.mpr h)
    rw [List.cons_append, pieces, if_neg (Ne.symm hc), ih ha]

theorem pieces_eq_singleton {a : List Char} (ha : '/' ∉ a) : pieces a = [a] := by
  induction a with
  | nil => rfl
  | cons c a ih =>
    obtain ⟨hc, ha⟩ := not_or.mp fun h => ha (List.mem_cons.mpr h)
    rw [pieces, if_neg (Ne.symm hc), ih ha]

theorem pieces_intercalate {l : List (List Char)} (hne : l ≠ []) (h : ∀ piece ∈ l, '/' ∉ piece) :
    pieces (['/'].intercalate l) = l := by
  induction l with
  | nil => exact absurd rfl hne
  | cons first rest ih =>
    have hfirst := h first (List.mem_cons_self ..)
    cases rest with
    | nil => rw [List.intercalate_singleton, pieces_eq_singleton hfirst]
    | cons second rest =>
      rw [List.intercalate_cons_cons, List.append_assoc, List.singleton_append,
        pieces_append_slash hfirst,
        ih (List.cons_ne_nil _ _) fun piece hpiece => h piece (List.mem_cons_of_mem _ hpiece)]

theorem names_ofNames {components : List String} (h : ∀ name ∈ components, Plain name) :
    names (ofNames components) = components := by
  have hchars : (ofNames components).toList
      = '/' :: ['/'].intercalate (components.map String.toList) := by
    rw [ofNames, String.toList_append, String.toList_intercalate]
    rfl
  have hpieces : (pieces (ofNames components).toList).filter (! ·.isEmpty)
      = components.map String.toList := by
    rw [hchars, pieces, if_pos rfl, List.filter_cons_of_neg (by simp)]
    cases components with
    | nil => rfl
    | cons first rest =>
      have hslash : ∀ piece ∈ (first :: rest).map String.toList, '/' ∉ piece := by
        intro piece hpiece
        obtain ⟨name, hname, rfl⟩ := List.mem_map.mp hpiece
        exact (h name hname).slash_not_mem
      rw [pieces_intercalate (by simp) hslash, List.filter_eq_self]
      intro piece hpiece
      obtain ⟨name, hname, rfl⟩ := List.mem_map.mp hpiece
      simpa using (h name hname).ne_empty
  rw [names, hpieces, List.map_map]
  exact List.map_id'' (fun name => String.ofList_toList) components

end Path

/-! ## Names in directories -/

variable {m m' : Medium} {count : Nat}

namespace Tree

/-- The names in a directory are different, and can stand in paths. -/
structure WellNamed (m : Medium) : Prop where
  plain : ∀ {d i e}, Reached m d → slot? m d i = some e → Path.Plain e.name
  distinct : ∀ {d i j e e'}, Reached m d → slot? m d i = some e → slot? m d j = some e' →
    e.name = e'.name → i = j

theorem name_ne_of_find?_eq_none {d i : Nat} {name : String} {e : Entry}
    (hfind : (table m d).find? name = none) (hi : slot? m d i = some e) : e.name ≠ name := by
  obtain ⟨hget, hused⟩ := slot?_eq_some.mp hi
  exact Directory.name_ne_of_find?_eq_none hfind hget hused

namespace WellNamed

theorem mono (hw : WellNamed m) (hreached : ∀ d, Reached m' d → Reached m d)
    (hslot : ∀ d i e, Reached m' d → slot? m' d i = some e → slot? m d i = some e) :
    WellNamed m' where
  plain hd hi := hw.plain (hreached _ hd) (hslot _ _ _ hd hi)
  distinct hd hi hj := hw.distinct (hreached _ hd) (hslot _ _ _ hd hi) (hslot _ _ _ hd hj)

variable (hw : WellNamed m) {d : Nat} (hd : Reached m d)
include hw hd

theorem nodup_names : ((table m d).list.map Entry.name).Nodup := by
  rw [List.Nodup, List.pairwise_map, Directory.list, List.pairwise_filter,
    List.pairwise_iff_getElem]
  intro i j hi hj hlt hused hused' heq
  have hslot {k : Nat} (hk : k < (table m d).slots.toList.length)
      (hused : (table m d).slots.toList[k].inUse = true) :
      slot? m d k = some (table m d).slots.toList[k] := by
    refine slot?_eq_some.mpr ⟨?_, hused⟩
    rw [← Array.getElem?_toList, List.getElem?_eq_getElem hk]
  have := hw.distinct hd (hslot hi hused) (hslot hj hused') heq
  omega

theorem plain_of_mem {e : Entry} (he : e ∈ (table m d).list) : Path.Plain e.name := by
  obtain ⟨i, hi⟩ := exists_slot_of_mem e he
  exact hw.plain hd hi

end WellNamed

end Tree

/-! ## What requests do to names -/

theorem Formatting.wellNamed_after (hv : Valid count) : WellNamed (after m count) where
  plain hd hi := by
    rw [(reached_after hv).mp hd, slot?_after hv] at hi
    cases hi
  distinct hd hi := by
    rw [(reached_after hv).mp hd, slot?_after hv] at hi
    cases hi

namespace NewEntry

variable {a : NewEntry} {c : Creation} {parents : List String}

namespace Goes

variable (hgoes : a.Goes m count c parents) (hc : Consistent m count)
include hgoes hc

theorem slot?_after_cases {d i : Nat} {e : Entry} (hd : Reached (c.after m count) d)
    (hi : slot? (c.after m count) d i = some e) : Reached m d ∧ (slot? m d i = some e ∨
      d = Word.wide c.parent ∧ i = c.slot ∧ e = c.entry) := by
  have hv := hgoes.serves.valid
  rcases (Creation.reached_after hc hv).mp hd with hd | ⟨hkind, rfl⟩
  · refine ⟨hd, ?_⟩
    rw [Creation.slot?_after hc hv d hd] at hi
    split at hi
    · next heq => exact .inr ⟨heq.1, heq.2, (Option.some.inj hi).symm⟩
    · exact .inl hi
  · have hsector : Word.wide c.entry.sector = c.sector := Creation.wide_sector hc hv
    rw [← hsector,
      Creation.slot?_after_new hc hv ((Entry.isDirectory_named ..).mpr hkind)] at hi
    cases hi

omit hc in
theorem plain_name : Path.Plain c.entry.name := by
  obtain ⟨before, hsplit, -⟩ := hgoes.serves.leads
  obtain ⟨hrelative, -⟩ := Path.splitLast_eq_ok.mp hsplit
  refine Path.plain_of_mem_names ?_ hrelative
  rw [hgoes.name_eq, hgoes.names_eq]
  exact List.mem_append_right _ (List.mem_singleton_self _)

theorem wellNamed_after (hw : WellNamed m) : WellNamed (c.after m count) where
  plain hd hi := by
    obtain ⟨hd, hi | ⟨rfl, rfl, rfl⟩⟩ := hgoes.slot?_after_cases hc hd hi
    · exact hw.plain hd hi
    · exact hgoes.plain_name
  distinct hd hi hj heq := by
    have hnew {i : Nat} {e : Entry} (hi : slot? m (Word.wide c.parent) i = some e) :
        e.name ≠ c.entry.name := by
      rw [hgoes.name_eq]
      exact name_ne_of_find?_eq_none hgoes.new hi
    obtain ⟨hd', hi | ⟨rfl, rfl, rfl⟩⟩ := hgoes.slot?_after_cases hc hd hi
    · obtain ⟨-, hj | ⟨rfl, rfl, rfl⟩⟩ := hgoes.slot?_after_cases hc hd hj
      · exact hw.distinct hd' hi hj heq
      · exact absurd heq (hnew hi)
    · obtain ⟨-, hj | ⟨-, rfl, -⟩⟩ := hgoes.slot?_after_cases hc hd hj
      · exact absurd heq.symm (hnew hj)
      · rfl

end Goes

theorem wellNamed_perform {fs : FileSystem} (h : fs.Healthy) (hw : WellNamed fs.disk.medium)
    (a : NewEntry) : WellNamed (a.request.perform fs).2.disk.medium := by
  cases hplan : a.plan fs.disk.medium fs.disk.count with
  | error cause =>
    obtain ⟨q, -, heq⟩ := perform_of_refused h hplan
    rw [heq]
    exact hw
  | ok c =>
    obtain ⟨q, -, heq⟩ := perform_of_plan h hplan
    obtain ⟨parents, hgoes⟩ := exists_goes h.sound.consistent hplan
    rw [heq]
    exact hgoes.wellNamed_after h.sound.consistent hw

end NewEntry

theorem Outcome.wellNamed {t t' : OpenTable} {r : Request} {response : Response}
    (ho : Outcome m count t r response m' t') (hs : Sound m count t) (hr : r.Admissible m t)
    (hnew : ∀ a : NewEntry, r ≠ a.request) (hw : WellNamed m) : WellNamed m' := by
  have hc := hs.consistent
  cases ho with
  | failed | overlong | openedNone | opened | closed | readUnknown | read | writtenUnknown | listed
    | remounted => exact hw
  | @created path size => exact absurd rfl (hnew (.file path size))
  | @createdDirectory path => exact absurd rfl (hnew (.directory path))
  | removed hserves =>
    have hv := hserves.valid
    refine hw.mono (fun d hd => ((Removal.reached_after hc hv).mp hd).1) fun d i e hd hi => ?_
    rw [Removal.slot?_after hc hv d ((Removal.reached_after hc hv).mp hd).1] at hi
    split at hi
    · cases hi
    · exact hi
  | @written id data f k hfind hk =>
    have hsame := hc.sameTree_write (hr f hfind) f.position data
    rw [← (hs.current id f hfind).header_eq] at hsame
    refine hw.mono (fun d hd => (hsame.reached_iff hc).mp hd) fun d i e hd hi => ?_
    rwa [hsame.slot?_eq hc d ((hsame.reached_iff hc).mp hd)] at hi

theorem Reachable.wellNamed {fs : FileSystem} (h : Reachable fs) : WellNamed fs.disk.medium := by
  induction h with
  | format hfaults hmedium hformat =>
    obtain ⟨hv, q, -, rfl⟩ := FileSystem.eq_of_format hfaults hmedium hformat
    exact Formatting.wellNamed_after hv
  | @perform fs hfs r hr ih =>
    by_cases hnew : ∃ a : NewEntry, r = a.request
    · obtain ⟨a, rfl⟩ := hnew
      exact a.wellNamed_perform hfs.healthy ih
    · obtain ⟨m', t', q, -, ho, hresult⟩ := hfs.healthy.hasOutcome r
      rw [hresult]
      exact ho.wellNamed hfs.healthy.sound hr (fun a ha => hnew ⟨a, ha⟩) ih

end IndexedDisk
