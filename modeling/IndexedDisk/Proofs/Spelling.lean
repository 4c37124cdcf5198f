import IndexedDisk.Proofs.Labels
import Mathlib.Data.List.Sort

/-!
# Paths and their spellings

The names in a path are its runs: the longest stretches of characters that are not slashes, in the
order in which they stand there. A path is read as these names if none of them is relative.

* `isRun_append_slash`: the runs of a text are those before a slash and those after it.
* `areRuns_iff`: the runs of a path are the names that are read from it, and no others.
* `names_spell`: names come back from every spelling, whatever the numbers of slashes in it.
* `paths_are_split_at_slashes`: what a path is read as, and for what it is refused.
-/

namespace IndexedDisk.Path

/-! ## Runs -/

/--
The characters from `start` to before `stop` are a run: there are some, none of them is a slash, and
the run goes on at neither end.
-/
structure IsRun (text : List Char) (start stop : Nat) : Prop where
  lt : start < stop
  le_length : stop ≤ text.length
  slashless : ∀ i, start ≤ i → i < stop → text[i]? ≠ some '/'
  opened : ∀ i, i + 1 = start → text[i]? = some '/'
  closed : stop < text.length → text[stop]? = some '/'

/-- The places are those of the runs, in order. -/
structure Runs (text : List Char) (places : List (Nat × Nat)) : Prop where
  ordered : places.Pairwise fun p q => p.1 < q.1
  mem_iff : ∀ start stop, (start, stop) ∈ places ↔ IsRun text start stop

/-- The characters at a place. -/
def piece (text : List Char) (place : Nat × Nat) : List Char :=
  (text.drop place.1).take (place.2 - place.1)

/-- The names are the runs of the path, in order. -/
def AreRuns (path : String) (names : List String) : Prop :=
  ∃ places, Runs path.toList places ∧
    names = places.map fun place => String.ofList (piece path.toList place)

section

variable {a b : List Char} {start stop : Nat} (ha : '/' ∉ a)
include ha

theorem getElem?_ne_slash (i : Nat) : a[i]? ≠ some '/' := fun h => ha (List.mem_of_getElem? h)

theorem isRun_iff_of_not_mem : IsRun a start stop ↔ start = 0 ∧ stop = a.length ∧ a ≠ [] := by
  constructor
  · intro h
    have hlt := h.lt
    have hle := h.le_length
    refine ⟨Nat.eq_zero_of_not_pos fun hpos => ?_,
      le_antisymm hle (Nat.le_of_not_lt fun hstop => ?_), fun hnil => ?_⟩
    · exact getElem?_ne_slash ha _ (h.opened (start - 1) (by omega))
    · exact getElem?_ne_slash ha _ (h.closed hstop)
    · rw [hnil, List.length_nil] at hle
      omega
  · rintro ⟨rfl, rfl, hne⟩
    exact {
      lt := List.length_pos_of_ne_nil hne
      le_length := le_rfl
      slashless := fun i _ _ => getElem?_ne_slash ha i
      opened := fun i hi => absurd hi (Nat.succ_ne_zero i)
      closed := fun hlt => absurd hlt (lt_irrefl _) }

omit ha in
theorem getElem?_after_slash (i : Nat) : (a ++ '/' :: b)[a.length + 1 + i]? = b[i]? := by
  rw [List.getElem?_append_right (by omega)]
  have hi : a.length + 1 + i - a.length = i + 1 := by omega
  rw [hi, List.getElem?_cons_succ]

omit ha in
theorem length_append_slash : (a ++ '/' :: b).length = a.length + 1 + b.length := by
  rw [List.length_append, List.length_cons]
  omega

theorem isRun_before_slash (hstart : start ≤ a.length) :
    IsRun (a ++ '/' :: b) start stop ↔ start = 0 ∧ stop = a.length ∧ a ≠ [] := by
  have hleft {i : Nat} (hi : i < a.length) : (a ++ '/' :: b)[i]? ≠ some '/' := by
    rw [List.getElem?_append_left hi]
    exact getElem?_ne_slash ha i
  have hslash : (a ++ '/' :: b)[a.length]? = some '/' := by simp
  have hlength : (a ++ '/' :: b).length = a.length + 1 + b.length := length_append_slash
  constructor
  · intro h
    have hlt := h.lt
    have hle := h.le_length
    have hstop : stop ≤ a.length := Nat.le_of_not_lt fun hstop =>
      h.slashless a.length hstart hstop hslash
    refine ⟨Nat.eq_zero_of_not_pos fun hpos => ?_,
      le_antisymm hstop (Nat.le_of_not_lt fun hlt => ?_), List.ne_nil_of_length_pos (by omega)⟩
    · exact hleft (by omega) (h.opened (start - 1) (by omega))
    · exact hleft hlt (h.closed (by omega))
  · rintro ⟨rfl, rfl, hne⟩
    exact {
      lt := List.length_pos_of_ne_nil hne
      le_length := by omega
      slashless := fun i _ hi => hleft hi
      opened := fun i hi => absurd hi (Nat.succ_ne_zero i)
      closed := fun _ => hslash }

omit ha in
theorem isRun_after_slash {i j : Nat} :
    IsRun (a ++ '/' :: b) (a.length + 1 + i) (a.length + 1 + j) ↔ IsRun b i j := by
  have hlength : (a ++ '/' :: b).length = a.length + 1 + b.length := length_append_slash
  constructor
  · intro h
    have hlt := h.lt
    have hle := h.le_length
    exact {
      lt := by omega
      le_length := by omega
      slashless := fun k hik hkj => getElem?_after_slash k ▸ h.slashless _ (by omega) (by omega)
      opened := fun k hk => getElem?_after_slash k ▸ h.opened _ (by omega)
      closed := fun hj => getElem?_after_slash j ▸ h.closed (by omega) }
  · intro h
    have hlt := h.lt
    have hle := h.le_length
    exact {
      lt := by omega
      le_length := by omega
      slashless := fun k hik hkj => by
        obtain ⟨k, rfl⟩ := Nat.exists_eq_add_of_le (Nat.le_trans (Nat.le_add_right ..) hik)
        rw [getElem?_after_slash]
        exact h.slashless k (by omega) (by omega)
      opened := fun k hk => by
        -- the first run may start right after the slash
        cases i with
        | zero =>
          obtain rfl : k = a.length := by omega
          simp
        | succ i =>
          obtain rfl : k = a.length + 1 + i := by omega
          rw [getElem?_after_slash]
          exact h.opened i rfl
      closed := fun hj => by
        rw [getElem?_after_slash]
        exact h.closed (by omega) }

theorem isRun_append_slash : IsRun (a ++ '/' :: b) start stop ↔
    (start = 0 ∧ stop = a.length ∧ a ≠ []) ∨
      ∃ i j, IsRun b i j ∧ start = a.length + 1 + i ∧ stop = a.length + 1 + j := by
  constructor
  · intro h
    rcases Nat.lt_or_ge a.length start with hstart | hstart
    · obtain ⟨i, rfl⟩ := Nat.exists_eq_add_of_le hstart
      obtain ⟨j, rfl⟩ := Nat.exists_eq_add_of_le (Nat.le_trans hstart h.lt.le)
      exact .inr ⟨i, j, isRun_after_slash.mp h, rfl, rfl⟩
    · exact .inl ((isRun_before_slash ha hstart).mp h)
  · rintro (⟨rfl, rfl, hne⟩ | ⟨i, j, h, rfl, rfl⟩)
    · exact (isRun_before_slash ha (Nat.zero_le _)).mpr ⟨rfl, rfl, hne⟩
    · exact isRun_after_slash.mpr h

end

/-! ## Runs and names -/

theorem Runs.unique {text : List Char} {l l' : List (Nat × Nat)} (h : Runs text l)
    (h' : Runs text l') : l = l' := by
  have hnodup {l : List (Nat × Nat)} (h : Runs text l) : l.Nodup :=
    h.ordered.imp fun hlt heq => absurd (heq ▸ hlt) (lt_irrefl _)
  have hperm : l.Perm l' := (List.perm_ext_iff_of_nodup (hnodup h) (hnodup h')).mpr
    fun place => (h.mem_iff place.1 place.2).trans (h'.mem_iff place.1 place.2).symm
  exact hperm.eq_of_pairwise (fun p q _ _ hpq hqp => absurd hpq (lt_asymm hqp)) h.ordered h'.ordered

/-- The place of a text without slashes, if it is not empty. -/
def whole (a : List Char) : List (Nat × Nat) := if a = [] then [] else [(0, a.length)]

theorem mem_whole {a : List Char} {start stop : Nat} :
    (start, stop) ∈ whole a ↔ start = 0 ∧ stop = a.length ∧ a ≠ [] := by
  unfold whole
  split <;> simp_all

theorem map_piece_whole (a b : List Char) :
    (whole a).map (piece (a ++ b)) = [a].filter (! ·.isEmpty) := by
  unfold whole
  split
  · next h => simp [h]
  · next h => simp [h, piece]

theorem runs_whole {a : List Char} (ha : '/' ∉ a) : Runs a (whole a) where
  ordered := by
    unfold whole
    split <;> simp
  mem_iff start stop := mem_whole.trans (isRun_iff_of_not_mem ha).symm

theorem runs_append_slash {a b : List Char} {places : List (Nat × Nat)} (ha : '/' ∉ a)
    (h : Runs b places) : Runs (a ++ '/' :: b)
      (whole a ++ places.map fun p => (a.length + 1 + p.1, a.length + 1 + p.2)) where
  ordered := by
    refine List.pairwise_append.mpr ⟨(runs_whole ha).ordered, ?_, ?_⟩
    · exact List.pairwise_map.mpr (h.ordered.imp fun hlt => Nat.add_lt_add_left hlt _)
    · rintro ⟨start, stop⟩ hp q hq
      obtain ⟨q, -, rfl⟩ := List.mem_map.mp hq
      have hstart := (mem_whole.mp hp).1
      dsimp only
      omega
  mem_iff start stop := by
    rw [isRun_append_slash ha, List.mem_append, mem_whole]
    refine or_congr_right ⟨fun hplace => ?_, ?_⟩
    · obtain ⟨p, hp, heq⟩ := List.mem_map.mp hplace
      obtain ⟨rfl, rfl⟩ := Prod.mk.inj heq
      exact ⟨p.1, p.2, (h.mem_iff p.1 p.2).mp hp, rfl, rfl⟩
    · rintro ⟨i, j, hrun, rfl, rfl⟩
      exact List.mem_map.mpr ⟨(i, j), (h.mem_iff i j).mpr hrun, rfl⟩

theorem exists_runs (text : List Char) : ∃ places, Runs text places ∧
    places.map (piece text) = (pieces text).filter (! ·.isEmpty) := by
  -- on the length of the text, from one slash to the next
  induction hn : text.length using Nat.strong_induction_on generalizing text with
  | _ n ih =>
    subst hn
    by_cases hslash : '/' ∈ text
    · obtain ⟨a, b, rfl, ha⟩ := List.eq_append_cons_of_mem hslash
      obtain ⟨places, hruns, hpieces⟩ := ih b.length (by simp; omega) b rfl
      refine ⟨_, runs_append_slash ha hruns, ?_⟩
      have hshift (p : Nat × Nat) :
          piece (a ++ '/' :: b) (a.length + 1 + p.1, a.length + 1 + p.2) = piece b p := by
        have hdrop : (a ++ '/' :: b).drop (a.length + 1 + p.1) = b.drop p.1 := by
          rw [Nat.add_assoc, List.drop_length_add_append, Nat.add_comm, List.drop_succ_cons]
        rw [piece, hdrop, Nat.add_sub_add_left, piece]
      have hfilter : (a :: pieces b).filter (! ·.isEmpty)
          = [a].filter (! ·.isEmpty) ++ (pieces b).filter (! ·.isEmpty) :=
        List.filter_append [a] (pieces b)
      rw [pieces_append_slash ha, hfilter, ← hpieces, List.map_append, map_piece_whole,
        List.map_map]
      exact congrArg _ (List.map_congr_left fun p _ => hshift p)
    · refine ⟨whole text, runs_whole hslash, ?_⟩
      have h := map_piece_whole text []
      rwa [List.append_nil, ← pieces_eq_singleton hslash] at h

/-- The runs of a path are the names that are read from it. -/
theorem areRuns_iff {path : String} {l : List String} : AreRuns path l ↔ l = names path := by
  obtain ⟨places, hruns, hpieces⟩ := exists_runs path.toList
  have hnames : names path = places.map fun place => String.ofList (piece path.toList place) := by
    rw [names, ← hpieces, List.map_map]
    rfl
  constructor
  · rintro ⟨places', hruns', rfl⟩
    rw [hnames, hruns.unique hruns']
  · rintro rfl
    exact ⟨places, hruns, hnames⟩

/-! ## Spellings -/

theorem pieces_append (a b : List Char) : pieces (a ++ '/' :: b) = pieces a ++ pieces b := by
  fun_induction pieces a with
  | case1 => rw [List.nil_append, pieces, if_pos rfl, List.singleton_append]
  | case2 cs ih => rw [List.cons_append, pieces, if_pos rfl, ih, List.cons_append]
  | case3 c cs hc heq ih => exact absurd heq (pieces_ne_nil cs)
  | case4 c cs hc first rest heq ih =>
    rw [heq, List.cons_append] at ih
    rw [List.cons_append, pieces, if_neg hc, ih, List.cons_append]

theorem names_append_slash (a b : String) : names (a ++ "/" ++ b) = names a ++ names b := by
  have hchars : (a ++ "/" ++ b).toList = a.toList ++ '/' :: b.toList := by
    rw [String.toList_append, String.toList_append, List.append_assoc]
    rfl
  rw [names, hchars, pieces_append, List.filter_append, List.map_append, names, names]

theorem names_slash_append (path : String) : names ("/" ++ path) = names path := by
  rw [← String.empty_append (s := "/"), names_append_slash]
  rfl

theorem Plain.names_eq {name : String} (h : Plain name) : names name = [name] := by
  have hne : name.toList ≠ [] := fun hnil => h.ne_empty (String.toList_eq_nil_iff.mp hnil)
  rw [names, pieces_eq_singleton h.slash_not_mem, List.filter_cons_of_pos (by simpa using hne)]
  simp

/-- So many slashes. -/
def slashes (n : Nat) : String := String.ofList (List.replicate n '/')

/-- The names with slashes before each of them and after the last one, as many as `gaps` says. -/
def spell (gaps : Nat → Nat) : List String → String
  | [] => slashes (gaps 0)
  | name :: rest => slashes (gaps 0) ++ name ++ spell (fun i => gaps (i + 1)) rest

theorem slashes_succ (n : Nat) : slashes (n + 1) = "/" ++ slashes n :=
  String.toList_injective (by simp [slashes, List.replicate_succ])

theorem names_slashes_append (n : Nat) (path : String) :
    names (slashes n ++ path) = names path := by
  induction n with
  | zero => rw [slashes, List.replicate_zero, String.ofList_nil, String.empty_append]
  | succ n ih => rw [slashes_succ, String.append_assoc, names_slash_append, ih]

theorem exists_spell_eq (gaps : Nat → Nat) (l : List String) :
    ∃ rest, spell gaps l = slashes (gaps 0) ++ rest ∧ (l = [] → rest = "") := by
  cases l with
  | nil => exact ⟨"", (String.append_empty ..).symm, fun _ => rfl⟩
  | cons name l => exact ⟨name ++ spell (fun i => gaps (i + 1)) l, String.append_assoc .., nofun⟩

/-- Names come back from every spelling in which there is a slash between any two of them. -/
theorem names_spell {l : List String} {gaps : Nat → Nat} (h : ∀ name ∈ l, Plain name)
    (hgaps : ∀ i, 0 < i → i < l.length → gaps i ≠ 0) : names (spell gaps l) = l := by
  induction l generalizing gaps with
  | nil =>
    rw [spell, ← String.append_empty (s := slashes (gaps 0)), names_slashes_append]
    rfl
  | cons name l ih =>
    obtain ⟨hname, hl⟩ := List.forall_mem_cons.mp h
    have hrest : names (spell (fun i => gaps (i + 1)) l) = l := ih hl fun i hi hlt =>
      hgaps (i + 1) (Nat.succ_pos i) (Nat.succ_lt_succ hlt)
    obtain ⟨rest, hspell, hempty⟩ := exists_spell_eq (fun i => gaps (i + 1)) l
    rw [spell, String.append_assoc, names_slashes_append]
    rw [hspell] at hrest ⊢
    -- the slash after the name is missing only at the end
    cases hgap : gaps (0 + 1) with
    | zero =>
      obtain rfl : l = [] := List.eq_nil_of_length_eq_zero (Nat.eq_zero_of_not_pos fun hpos =>
        hgaps 1 Nat.one_pos (Nat.succ_lt_succ hpos) hgap)
      rw [hempty rfl, slashes, List.replicate_zero, String.ofList_nil, String.append_empty,
        String.append_empty, hname.names_eq]
    | succ n =>
      rw [hgap, names_slashes_append] at hrest
      rw [slashes_succ, String.append_assoc, ← String.append_assoc, names_append_slash,
        hname.names_eq, names_slashes_append, hrest, List.singleton_append]

/-! ## What a path is read as -/

theorem isRelative_iff {name : String} : isRelative name = true ↔ name = "." ∨ name = ".." := by
  rw [isRelative, Bool.or_eq_true, beq_iff_eq, beq_iff_eq]

theorem split_eq_ok_iff {path : String} {l : List String} :
    split path = .ok l ↔ l = names path ∧ ∀ name ∈ l, ¬ isRelative name = true := by
  unfold split
  cases hfind : (names path).find? isRelative with
  | none =>
    rw [List.find?_eq_none] at hfind
    exact ⟨fun h => Except.ok.inj h ▸ ⟨rfl, hfind⟩, fun h => h.1 ▸ rfl⟩
  | some name =>
    refine ⟨nofun, ?_⟩
    rintro ⟨rfl, hnot⟩
    exact absurd (List.find?_some hfind) (hnot name (List.mem_of_find?_eq_some hfind))

theorem split_eq_error_iff {path : String} {cause : Refusal} : split path = .error cause ↔
    ∃ before name after, names path = before ++ name :: after ∧
      (∀ other ∈ before, ¬ isRelative other = true) ∧ isRelative name = true ∧
      cause = .invalidPath (.relative name path) := by
  unfold split
  constructor
  · intro h
    cases hfind : (names path).find? isRelative with
    | none =>
      rw [hfind] at h
      cases h
    | some name =>
      rw [hfind] at h
      obtain ⟨hname, before, after, hnames, hbefore⟩ := List.find?_eq_some_iff_append.mp hfind
      exact ⟨before, name, after, hnames, by simpa using hbefore, hname,
        (Except.error.inj h).symm⟩
  · rintro ⟨before, name, after, hnames, hbefore, hname, rfl⟩
    rw [List.find?_eq_some_iff_append.mpr ⟨hname, before, after, hnames, by simpa using hbefore⟩]

/--
**Paths are split at slashes.** A path is read as a list of names exactly if these are its runs, in
order, and none of them is a single or a double dot. Otherwise it is refused, and the cause names
the first of its runs that is one. So any names that are not empty, have no slash and are not dots
come back from every path in which they stand with slashes between them, whatever the numbers of
slashes between, before and after them; and two paths with a slash between them are read as the
names of the one and then those of the other.
-/
theorem paths_are_split_at_slashes :
    (∀ path l, split path = .ok l ↔ AreRuns path l ∧ ∀ name ∈ l, name ≠ "." ∧ name ≠ "..") ∧
    (∀ path cause, split path = .error cause ↔ ∃ before name after,
      AreRuns path (before ++ name :: after) ∧ (∀ other ∈ before, other ≠ "." ∧ other ≠ "..") ∧
      (name = "." ∨ name = "..") ∧ cause = .invalidPath (.relative name path)) ∧
    (∀ (gaps : Nat → Nat) (l : List String),
      (∀ name ∈ l, name ≠ "" ∧ '/' ∉ name.toList ∧ name ≠ "." ∧ name ≠ "..") →
      (∀ i, 0 < i → i < l.length → gaps i ≠ 0) → split (spell gaps l) = .ok l) ∧
    ∀ a b l l', split a = .ok l → split b = .ok l' → split (a ++ "/" ++ b) = .ok (l ++ l') := by
  have hdots (name : String) : ¬ isRelative name = true ↔ name ≠ "." ∧ name ≠ ".." :=
    (not_congr isRelative_iff).trans not_or
  refine ⟨fun path l => ?_, fun path cause => ?_, fun gaps l hl hgaps => ?_,
    fun a b l l' ha hb => ?_⟩
  · simp only [split_eq_ok_iff, areRuns_iff, hdots]
  · simp only [split_eq_error_iff, areRuns_iff, isRelative_iff, not_or, ne_eq,
      @eq_comm _ (names path)]
  · have hplain (name : String) (hname : name ∈ l) : Plain name :=
      let ⟨hne, hslash, hnot⟩ := hl name hname
      ⟨hne, hslash, (hdots name).mpr hnot⟩
    exact split_eq_ok_iff.mpr ⟨(names_spell hplain hgaps).symm,
      fun name hname => (hplain name hname).not_relative⟩
  · obtain ⟨rfl, ha⟩ := split_eq_ok_iff.mp ha
    obtain ⟨rfl, hb⟩ := split_eq_ok_iff.mp hb
    exact split_eq_ok_iff.mpr ⟨(names_append_slash a b).symm,
      List.forall_mem_append.mpr ⟨ha, hb⟩⟩

/-- A path with slashes at will, and another one after it. -/
theorem paths_are_split_at_slashes_twice :
    split "//usr/é///x" = .ok ["usr", "é", "x"] ∧ split "/y/" = .ok ["y"] ∧
    split ("//usr/é///x" ++ "/" ++ "/y/") = .ok ["usr", "é", "x", "y"] := by
  obtain ⟨-, -, hspell, happend⟩ := paths_are_split_at_slashes
  have hgaps (i : Nat) (hi : 0 < i) (hlt : i < 3) : [2, 1, 3, 0].getD i 0 ≠ 0 := by
    obtain rfl | rfl : i = 1 ∨ i = 2 := by omega
    · decide
    · decide
  have ha : split (spell ([2, 1, 3, 0].getD · 0) ["usr", "é", "x"]) = .ok ["usr", "é", "x"] :=
    hspell _ _ (by decide) hgaps
  have hb : split (spell (fun _ => 1) ["y"]) = .ok ["y"] :=
    hspell _ _ (by decide) fun _ _ _ => Nat.one_ne_zero
  have ha' : spell ([2, 1, 3, 0].getD · 0) ["usr", "é", "x"] = "//usr/é///x" := by decide
  have hb' : spell (fun _ => 1) ["y"] = "/y/" := by decide
  rw [ha'] at ha
  rw [hb'] at hb
  exact ⟨ha, hb, happend _ _ _ _ ha hb⟩

end IndexedDisk.Path
