import IndexedDisk.Proofs.Creating
import IndexedDisk.Proofs.Naming

/-!
# What keeps a file from being made

`Obstacle` lists everything that can be in the way of a new file, on its own and without regard to
the rest, and numbers it in the order in which it is looked for. A request is refused for the first
obstacle that there is (`plan_eq_error_iff`), and goes ahead if there is none (`exists_plan_iff`).
-/

open IndexedDisk.Tree

namespace IndexedDisk

seal Tree.table

namespace Path

theorem ne_empty_of_mem_names {path name : String} (h : name ∈ names path) : name ≠ "" := by
  obtain ⟨piece, hpiece, rfl⟩ := List.mem_map.mp h
  have hne : piece ≠ [] := by simpa using (List.mem_filter.mp hpiece).2
  intro heq
  have := congrArg String.toList heq
  exact hne (by simpa using this)

theorem splitLast_eq_ok {path name : String} {parents : List String} :
    splitLast path = .ok (parents, name) ↔
      (names path).find? isRelative = none ∧ names path = parents ++ [name] := by
  unfold splitLast split
  cases hrelative : (names path).find? isRelative with
  | some other => exact ⟨nofun, nofun⟩
  | none =>
    dsimp only
    cases hlast : (names path).getLast? with
    | none =>
      rw [List.getLast?_eq_none_iff] at hlast
      exact ⟨nofun, fun h => by simp [hlast] at h⟩
    | some last =>
      obtain ⟨ys, hys⟩ := List.getLast?_eq_some_iff.mp hlast
      rw [hys, List.dropLast_concat]
      simp [eq_comm]

theorem splitLast_eq_error {path : String} {cause : Refusal} (h : splitLast path = .error cause) :
    (∃ name, (names path).find? isRelative = some name ∧
        cause = .invalidPath (.relative name path)) ∨
      ((names path).find? isRelative = none ∧ names path = [] ∧
        cause = .invalidPath (.noName path)) := by
  unfold splitLast split at h
  cases hrelative : (names path).find? isRelative with
  | some name =>
    rw [hrelative] at h
    exact Or.inl ⟨name, rfl, (Except.error.inj h).symm⟩
  | none =>
    rw [hrelative] at h
    dsimp only at h
    split at h
    · cases h
    · next hlast =>
      exact Or.inr ⟨rfl, List.getLast?_eq_none_iff.mp hlast, (Except.error.inj h).symm⟩

end Path

/--
What is in the way of a file of `size` bytes at a path, with its place in the order in which it is
looked for.
-/
inductive Obstacle (m : Medium) (count : Nat) (path : String) (size : Nat) : Nat → Refusal → Prop
  | relative {name} (h : (Path.names path).find? Path.isRelative = some name) :
      Obstacle m count path size 0 (.invalidPath (.relative name path))
  | noName (h : Path.names path = []) :
      Obstacle m count path size 1 (.invalidPath (.noName path))
  /-- The names before lead to a directory where the next one is missing. -/
  | missing {before name after p} (hpath : Path.names path = before ++ name :: after)
      (hafter : after ≠ []) (hbefore : walk (table m) rootSector [] before = .ok p)
      (h : (table m (Word.wide p)).find? name = none) :
      Obstacle m count path size 2 (.notFound (Path.ofNames (before ++ [name])))
  /-- The names before lead to a directory where the next one is that of a file. -/
  | notADirectory {before name after p e} (hpath : Path.names path = before ++ name :: after)
      (hafter : after ≠ []) (hbefore : walk (table m) rootSector [] before = .ok p)
      (h : (table m (Word.wide p)).find? name = some e) (hfile : ¬ e.isDirectory = true) :
      Obstacle m count path size 2 (.notADirectory (Path.ofNames (before ++ [name])))
  | taken {p name e} (hleads : LeadsTo m path p name)
      (h : (table m (Word.wide p)).find? name = some e) :
      Obstacle m count path size 3 (.alreadyExists path)
  | noFreeSector (h : ∀ i < count, (bitmap m count).bit i = true) :
      Obstacle m count path size 4 .noSpace
  | nameTooLong {name} (hname : (Path.names path).getLast? = some name)
      (h : maxNameLength < name.utf8ByteSize) : Obstacle m count path size 5 (.nameTooLong name)
  | nul {name} (hname : (Path.names path).getLast? = some name)
      (h : ∃ c ∈ name.toList, c.toNat = 0) :
      Obstacle m count path size 6 (.invalidPath (.badName name))
  | directoryFull {p name} (hleads : LeadsTo m path p name)
      (h : ∀ i < directorySlots, slot? m (Word.wide p) i ≠ none) :
      Obstacle m count path size 7 .directoryFull
  | fileTooLarge (h : maxFileSize < size) : Obstacle m count path size 8 (.fileTooLarge size)
  | noSpace (h : (bitmap m count).free.length
      < 1 + sectorsFor size + indexBlocksFor (sectorsFor size)) :
      Obstacle m count path size 9 .noSpace

/-- Nothing is in the way that is looked for before place `k`. -/
def Clear (obstacle : Nat → Refusal → Prop) (k : Nat) : Prop :=
  ∀ j < k, ∀ cause, ¬ obstacle j cause

/-- The cause is the first of those that there are. -/
def First (obstacle : Nat → Refusal → Prop) (cause : Refusal) : Prop :=
  ∃ k, obstacle k cause ∧ Clear obstacle k

theorem Clear.succ {obstacle : Nat → Refusal → Prop} {k : Nat} (h : Clear obstacle k)
    (hk : ∀ cause, ¬ obstacle k cause) : Clear obstacle (k + 1) := fun j hj =>
  (Nat.lt_succ_iff_lt_or_eq.mp hj).elim (h j) fun heq => heq ▸ hk

theorem First.unique {obstacle : Nat → Refusal → Prop} {cause cause' : Refusal}
    (h : First obstacle cause) (h' : First obstacle cause')
    (hplace : ∀ k cause cause', obstacle k cause → obstacle k cause' → cause = cause') :
    cause = cause' := by
  obtain ⟨k, hk, hclear⟩ := h
  obtain ⟨k', hk', hclear'⟩ := h'
  obtain hlt | rfl | hlt := Nat.lt_trichotomy k k'
  · exact absurd hk (hclear' k hlt cause)
  · exact hplace k _ _ hk hk'
  · exact absurd hk' (hclear k' hlt cause')

variable {m : Medium} {count : Nat}

namespace Tree

variable {tables : Nat → Directory} {p q : Int32} {walked before after : List String}

theorem walk_append (h : walk tables p walked before = .ok q) :
    walk tables p walked (before ++ after) = walk tables q (walked ++ before) after := by
  induction before generalizing p walked with
  | nil =>
    rw [walk] at h
    rw [List.nil_append, List.append_nil, Except.ok.inj h]
  | cons name rest ih =>
    cases he : (tables (Word.wide p)).find? name with
    | none =>
      rw [walk_none he] at h
      cases h
    | some e =>
      by_cases hdir : e.isDirectory = true
      · rw [walk_directory he hdir] at h
        rw [List.cons_append, walk_directory he hdir, ih h, List.append_assoc]
        rfl
      · rw [walk_file he hdir] at h
        cases h

theorem exists_of_walk_eq_error {names : List String} {cause : Refusal}
    (h : walk tables p walked names = .error cause) : ∃ before name after q,
      names = before ++ name :: after ∧ walk tables p walked before = .ok q ∧
        (((tables (Word.wide q)).find? name = none ∧
            cause = .notFound (Path.ofNames (walked ++ before ++ [name]))) ∨
          ∃ e, (tables (Word.wide q)).find? name = some e ∧ ¬ e.isDirectory = true ∧
            cause = .notADirectory (Path.ofNames (walked ++ before ++ [name]))) := by
  induction names generalizing p walked with
  | nil =>
    rw [walk] at h
    cases h
  | cons name rest ih =>
    cases he : (tables (Word.wide p)).find? name with
    | none =>
      rw [walk_none he] at h
      refine ⟨[], name, rest, p, rfl, by rw [walk], Or.inl ⟨he, ?_⟩⟩
      rw [List.append_nil, Except.error.inj h]
    | some e =>
      by_cases hdir : e.isDirectory = true
      · rw [walk_directory he hdir] at h
        obtain ⟨before, name', after, q, rfl, hbefore, hcause⟩ := ih h
        refine ⟨name :: before, name', after, q, rfl, by rw [walk_directory he hdir, hbefore], ?_⟩
        rw [List.append_assoc walked, List.singleton_append] at hcause
        exact hcause
      · rw [walk_file he hdir] at h
        refine ⟨[], name, rest, p, rfl, by rw [walk], Or.inr ⟨e, he, hdir, ?_⟩⟩
        rw [List.append_nil, Except.error.inj h]

end Tree

namespace Directory

variable {d : Directory} {name : String} {sector : Int32} {kind : EntryKind}

theorem findIdx?_eq_none_of_find? (h : d.find? name = none) : d.findIdx? name = none := by
  rw [find?, Array.find?_eq_none] at h
  rw [findIdx?, Array.findIdx?_eq_none_iff]
  simpa using h

end Directory

namespace Obstacle

variable {path : String} {size k : Nat} {cause cause' : Refusal}

theorem lt (h : Obstacle m count path size k cause) : k < 10 := by
  cases h <;> decide

theorem walk_eq_error (h : Obstacle m count path size 2 cause) :
    walk (table m) rootSector [] (Path.names path).dropLast = .error cause := by
  have hdrop {before name after} (hpath : Path.names path = before ++ name :: after)
      (hafter : after ≠ []) : (Path.names path).dropLast = before ++ name :: after.dropLast := by
    rw [hpath, List.dropLast_append_of_ne_nil (by simp), List.dropLast_cons_of_ne_nil hafter]
  cases h with
  | missing hpath hafter hbefore h =>
    rw [hdrop hpath hafter, walk_append hbefore, walk_none h, List.nil_append]
  | notADirectory hpath hafter hbefore h hfile =>
    rw [hdrop hpath hafter, walk_append hbefore, walk_file h hfile, List.nil_append]

theorem functional (h : Obstacle m count path size k cause)
    (h' : Obstacle m count path size k cause') : cause = cause' := by
  have hlast {name name' : String} (hname : (Path.names path).getLast? = some name)
      (hname' : (Path.names path).getLast? = some name') : name = name' :=
    Option.some.inj (hname.symm.trans hname')
  have hwalk := h
  cases h with
  | relative h =>
    cases h' with
    | relative h' => rw [Option.some.inj (h.symm.trans h')]
  | noName => cases h'; rfl
  | missing | notADirectory =>
    exact Except.error.inj (hwalk.walk_eq_error.symm.trans h'.walk_eq_error)
  | taken => cases h'; rfl
  | noFreeSector => cases h'; rfl
  | nameTooLong hname =>
    cases h' with
    | nameTooLong hname' => rw [hlast hname hname']
  | nul hname =>
    cases h' with
    | nul hname' => rw [hlast hname hname']
  | directoryFull => cases h'; rfl
  | fileTooLarge => cases h'; rfl
  | noSpace => cases h'; rfl

end Obstacle

namespace Creation

theorem add_cases {path name : String} {parent : Int32} (size : Nat) (sector : Int32)
    (kind : EntryKind) (hlast : (Path.names path).getLast? = some name)
    (hleads : LeadsTo m path parent name) (hnew : (table m (Word.wide parent)).find? name = none)
    (hclear : Clear (Obstacle m count path size) 5) :
    (∃ d, (table m (Word.wide parent)).add name sector kind = .ok d ∧
        Clear (Obstacle m count path size) 8) ∨
      ∃ cause, (table m (Word.wide parent)).add name sector kind = .error cause ∧
        First (Obstacle m count path size) cause := by
  have hidx := Directory.findIdx?_eq_none_of_find? hnew
  unfold Directory.add
  by_cases hlength : maxNameLength < name.utf8ByteSize
  · exact Or.inr ⟨_, if_pos hlength, 5, .nameTooLong hlast hlength, hclear⟩
  have hclear := hclear.succ fun cause h => by
    cases h with
    | nameTooLong hname h =>
      rw [hlast, Option.some.injEq] at hname
      exact hlength (hname ▸ h)
  have hbad : Directory.isBadName name = true ↔ ∃ c ∈ name.toList, c.toNat = 0 := by
    have hne := Path.ne_empty_of_mem_names (List.mem_of_getLast? hlast)
    simp [Directory.isBadName, String.isEmpty_iff, hne]
  by_cases hnul : Directory.isBadName name = true
  · rw [if_neg hlength, if_pos hnul]
    exact Or.inr ⟨_, rfl, 6, .nul hlast (hbad.mp hnul), hclear⟩
  have hclear := hclear.succ fun cause h => by
    cases h with
    | nul hname h =>
      rw [hlast, Option.some.injEq] at hname
      exact hnul (hbad.mpr (hname ▸ h))
  rw [if_neg hlength, if_neg hnul, hidx]
  cases hslot : (table m (Word.wide parent)).slots.findIdx? (! ·.inUse) with
  | none =>
    refine Or.inr ⟨_, rfl, 7, .directoryFull hleads fun i hi => ?_, hclear⟩
    rw [← size_table m (Word.wide parent)] at hi
    refine slot?_ne_none hi ?_
    rw [Array.findIdx?_eq_none_iff] at hslot
    simpa using hslot _ (Array.getElem_mem hi)
  | some slot =>
    refine Or.inl ⟨_, rfl, hclear.succ fun cause h => ?_⟩
    obtain ⟨hlt, hfree, -⟩ := Array.findIdx?_eq_some_iff_getElem.mp hslot
    cases h with
    | directoryFull hleads' h =>
      obtain ⟨rfl, -⟩ := hleads.unique hleads'
      exact h slot (size_table m (Word.wide parent) ▸ hlt)
        (slot?_eq_none hlt (by simpa using hfree))

theorem plan_cases_of_leads {path name : String} {parents : List String} {parent : Int32}
    (size : Nat) (kind : EntryKind) (hsplit : Path.splitLast path = .ok (parents, name))
    (hwalk : walk (table m) rootSector [] parents = .ok parent)
    (hclear : Clear (Obstacle m count path size) 3) :
    (∃ c, plan m count path size kind = .ok c ∧ Clear (Obstacle m count path size) 10) ∨
      ∃ cause, plan m count path size kind = .error cause ∧
        First (Obstacle m count path size) cause := by
  have hleads : LeadsTo m path parent name := ⟨parents, hsplit, hwalk⟩
  have hlast : (Path.names path).getLast? = some name := by
    rw [(Path.splitLast_eq_ok.mp hsplit).2, List.getLast?_concat]
  unfold plan
  rw [hsplit]
  dsimp only
  rw [hwalk]
  dsimp only
  cases hfind : (table m (Word.wide parent)).find? name with
  | some e => exact Or.inr ⟨_, if_pos rfl, 3, .taken hleads hfind, hclear⟩
  | none =>
    have hclear := hclear.succ fun cause h => by
      cases h with
      | taken hleads' h =>
        obtain ⟨rfl, rfl⟩ := hleads.unique hleads'
        rw [hfind] at h
        cases h
    rw [if_neg nofun]
    cases hfree : (bitmap m count).free with
    | nil =>
      exact Or.inr ⟨_, rfl, 4, .noFreeSector (SectorMap.free_eq_nil_iff.mp hfree), hclear⟩
    | cons sector rest =>
      have hclear := hclear.succ fun cause h => by
        cases h with
        | noFreeSector h =>
          have hnil : (bitmap m count).free = [] := SectorMap.free_eq_nil_iff.mpr h
          rw [hfree] at hnil
          cases hnil
      dsimp only
      rcases add_cases size (Word.ofNat sector) kind hlast hleads hfind hclear with
        ⟨d, hadd, hclear⟩ | ⟨cause, hadd, hfirst⟩
      · rw [hadd]
        dsimp only
        by_cases hsize : maxFileSize < size
        · exact Or.inr ⟨_, if_pos hsize, 8, .fileTooLarge hsize, hclear⟩
        have hclear := hclear.succ fun cause h => by
          cases h with
          | fileTooLarge h => exact hsize h
        have hlength : (bitmap m count).free.length = rest.length + 1 := by
          rw [hfree, List.length_cons]
        rw [if_neg hsize]
        by_cases hroom : rest.length < sectorsFor size + indexBlocksFor (sectorsFor size)
        · exact Or.inr ⟨_, if_pos hroom, 9, .noSpace (by omega), hclear⟩
        · refine Or.inl ⟨_, if_neg hroom, hclear.succ fun cause h => ?_⟩
          cases h with
          | noSpace h => omega
      · rw [hadd]
        exact Or.inr ⟨cause, rfl, hfirst⟩

/-- A file is refused for the first thing that is in its way, and planned if nothing is. -/
theorem plan_cases (m : Medium) (count : Nat) (path : String) (size : Nat) (kind : EntryKind) :
    (∃ c, plan m count path size kind = .ok c ∧ Clear (Obstacle m count path size) 10) ∨
      ∃ cause, plan m count path size kind = .error cause ∧
        First (Obstacle m count path size) cause := by
  cases hsplit : Path.splitLast path with
  | error cause =>
    refine Or.inr ⟨cause, by rw [plan, hsplit], ?_⟩
    rcases Path.splitLast_eq_error hsplit with ⟨name, h, rfl⟩ | ⟨h, hnil, rfl⟩
    · exact ⟨0, .relative h, nofun⟩
    · refine ⟨1, .noName hnil, Clear.succ nofun fun cause hobstacle => ?_⟩
      cases hobstacle with
      | relative h' => rw [h] at h'; cases h'
  | ok split =>
    obtain ⟨parents, name⟩ := split
    obtain ⟨hrelative, hnames⟩ := Path.splitLast_eq_ok.mp hsplit
    have hlast : (Path.names path).getLast? = some name := by rw [hnames, List.getLast?_concat]
    have hclear : Clear (Obstacle m count path size) 2 := by
      refine (Clear.succ (nofun : Clear _ 0) fun cause h => ?_).succ fun cause h => ?_
      · cases h with
        | relative h => rw [hrelative] at h; cases h
      · cases h with
        | noName h => rw [h] at hlast; cases hlast
    cases hwalk : walk (table m) rootSector [] parents with
    | error cause =>
      refine Or.inr ⟨cause, by simp only [plan, hsplit, hwalk], 2, ?_, hclear⟩
      obtain ⟨before, next, after, q, rfl, hbefore, hcause⟩ := exists_of_walk_eq_error hwalk
      rw [List.append_assoc, List.cons_append] at hnames
      rcases hcause with ⟨h, rfl⟩ | ⟨e, h, hfile, rfl⟩
      · exact .missing hnames (by simp) hbefore h
      · exact .notADirectory hnames (by simp) hbefore h hfile
    | ok parent =>
      refine plan_cases_of_leads size kind hsplit hwalk (hclear.succ fun cause h => ?_)
      have herror := h.walk_eq_error
      rw [hnames, List.dropLast_concat, hwalk] at herror
      cases herror

variable {path : String} {size : Nat} {kind : EntryKind}

theorem plan_eq_error_iff {cause : Refusal} :
    plan m count path size kind = .error cause ↔ First (Obstacle m count path size) cause := by
  rcases plan_cases m count path size kind with ⟨c, hplan, hclear⟩ | ⟨cause', hplan, hfirst⟩
  · rw [hplan]
    exact ⟨nofun, fun ⟨k, hk, _⟩ => absurd hk (hclear k hk.lt cause)⟩
  · rw [hplan, Except.error.injEq]
    exact ⟨fun h => h ▸ hfirst, fun h => hfirst.unique h fun _ _ _ => Obstacle.functional⟩

theorem exists_plan_iff : (∃ c, plan m count path size kind = .ok c) ↔
    ∀ k cause, ¬ Obstacle m count path size k cause := by
  rcases plan_cases m count path size kind with ⟨c, hplan, hclear⟩ | ⟨cause, hplan, k, hk, -⟩
  · exact ⟨fun _ k cause h => hclear k h.lt cause h, fun _ => ⟨c, hplan⟩⟩
  · rw [hplan]
    exact ⟨nofun, fun h => absurd hk (h k cause)⟩

end Creation

end IndexedDisk
