import IndexedDisk.Proofs.Walk

/-!
# What is found in a tree

The answers of the requests that look for a path, as functions of the tables of the directories.
All of them depend on the entries in use alone: a slot that was given up looks like one that never
was in use.

* `found`, `listed`, `listedTree`: what a path names, and what lies there.
* `answers_openPath`, `answers_list`, `answers_listTree`: what is answered.
* `SameEntries`: no directory has gained or lost an entry. By `found_congr`, `listed_congr` and
  `listedTree_congr` nothing else is found then.
-/

open IndexedDisk.Tree IndexedDisk.OpenFile

namespace IndexedDisk

/-! ## Entries in use -/

namespace Directory

variable {d d' : Directory}

theorem find?_eq_find?_list (d : Directory) (name : String) :
    d.find? name = d.list.find? (·.name == name) := by
  rw [find?, list, List.find?_filter, ← Array.find?_toList]
  congr
  funext e
  exact Bool.eq_iff_iff.mpr (by simp [holds])

theorem isEmpty_iff : d.isEmpty = true ↔ d.list = [] := by
  rw [isEmpty, list, List.filter_eq_nil_iff, Array.all_eq_true']
  simp

theorem list_congr (h : ∀ i : Nat, d'.slots[i]?.filter (·.inUse) = d.slots[i]?.filter (·.inUse)) :
    d'.list = d.list := by
  have hnil (l : List Entry) (h : ∀ i : Nat, l[i]?.filter (·.inUse) = none) :
      l.filter (·.inUse) = [] := by
    refine List.filter_eq_nil_iff.mpr fun e he => ?_
    obtain ⟨i, hi⟩ := List.mem_iff_getElem?.mp he
    have := h i
    rw [hi, Option.filter_eq_none_iff] at this
    exact this e rfl
  have hlist : ∀ l l' : List Entry,
      (∀ i : Nat, l'[i]?.filter (·.inUse) = l[i]?.filter (·.inUse)) →
      l'.filter (·.inUse) = l.filter (·.inUse) := by
    intro l
    induction l with
    | nil => exact fun l' h => hnil l' h
    | cons e l ih =>
      intro l' h
      cases l' with
      | nil => exact (hnil (e :: l) fun i => (h i).symm).symm
      | cons e' l' =>
        have hhead : Option.filter (·.inUse) (some e') = Option.filter (·.inUse) (some e) := h 0
        rw [List.filter_cons, List.filter_cons, ih l' fun i => h (i + 1)]
        rw [Option.filter_some, Option.filter_some] at hhead
        split at hhead <;> split at hhead <;> simp_all
  exact hlist _ _ fun i => by simpa only [Array.getElem?_toList] using h i

end Directory

namespace Tree

-- the tables of a tree are never evaluated
seal table

variable {m m' : Medium} {count : Nat}

/-- No directory has gained or lost an entry. -/
def SameEntries (m m' : Medium) : Prop :=
  ∀ d, Reached m d → (table m' d).list = (table m d).list

theorem sameEntries_of_slot? (h : ∀ d, Reached m d → ∀ i, slot? m' d i = slot? m d i) :
    SameEntries m m' := fun d hd => Directory.list_congr (h d hd)

theorem exists_slot_of_mem {d : Nat} (e : Entry) (h : e ∈ (table m d).list) :
    ∃ i, slot? m d i = some e := by
  obtain ⟨he, hused⟩ := List.mem_filter.mp h
  obtain ⟨i, hi⟩ := Array.mem_iff_getElem?.mp (Array.mem_toList_iff.mp he)
  exact ⟨i, slot?_eq_some.mpr ⟨hi, hused⟩⟩

theorem reached_of_mem {d : Nat} (hd : Reached m d) (e : Entry) (h : e ∈ (table m d).list)
    (hdir : e.isDirectory = true) : Reached m (Word.wide e.sector) := by
  obtain ⟨i, hi⟩ := exists_slot_of_mem e h
  exact .child hd hi hdir

theorem list_eq_nil {d : Nat} (h : ∀ i, slot? m d i = none) : (table m d).list = [] :=
  Directory.list_congr (d := ⟨#[]⟩) h

/-! ## Looking around -/

/-- The entry of a name in a directory, on behalf of a path. -/
def foundIn (d : Directory) (path name : String) : Except Refusal Entry :=
  match d.find? name with
  | none => .error (.notFound path)
  | some e => .ok e

/-- The entry that a path ends with. -/
def found (m : Medium) (path : String) : Except Refusal Entry :=
  match Path.splitLast path with
  | .error cause => .error cause
  | .ok (parents, name) =>
    match walk (table m) rootSector [] parents with
    | .error cause => .error cause
    | .ok p => foundIn (table m (Word.wide p)) path name

theorem found_eq_ok {path : String} {e : Entry} : found m path = .ok e ↔
    ∃ p name, LeadsTo m path p name ∧ (table m (Word.wide p)).find? name = some e := by
  constructor
  · intro h
    unfold found at h
    split at h
    · cases h
    rename_i parents name hsplit
    split at h
    · cases h
    rename_i p hwalk
    rw [foundIn] at h
    split at h
    · cases h
    rename_i hfind
    exact ⟨p, name, ⟨parents, hsplit, hwalk⟩, Except.ok.inj h ▸ hfind⟩
  · rintro ⟨p, name, ⟨parents, hsplit, hwalk⟩, hfind⟩
    rw [found, hsplit]
    dsimp only
    rw [hwalk]
    dsimp only
    rw [foundIn, hfind]

/-- The entries of the directory at a path. -/
def listed (m : Medium) (path : String) : Except Refusal (List Entry) :=
  match Path.split path with
  | .error cause => .error cause
  | .ok names =>
    match walk (table m) rootSector [] names with
    | .error cause => .error cause
    | .ok p => .ok (table m (Word.wide p)).list

/--
The entries of a directory at a depth, each followed by all that lies below it, in a tree with the
given tables. Directories are followed down for `fuel` levels.
-/
def below (tables : Nat → Directory) (fuel depth : Nat) :
    List Entry → Except Failure (List (Nat × Entry))
  | [] => .ok []
  | e :: rest => do
    let inner ←
      if e.isDirectory then
        match fuel with
        | 0 => .error (.broken .endless)
        | fuel + 1 => below tables fuel (depth + 1) (tables (Word.wide e.sector)).list
      else .ok []
    let after ← below tables fuel depth rest
    return (depth, e) :: inner ++ after
termination_by entries => (fuel, entries.length)

section

variable {tables : Nat → Directory} {fuel depth : Nat} {e : Entry} {rest : List Entry}

theorem below_file (he : ¬ e.isDirectory = true) : below tables fuel depth (e :: rest) = (do
    let after ← below tables fuel depth rest
    return (depth, e) :: after) := by
  cases fuel <;> rw [below, if_neg he] <;> rfl

theorem below_directory (he : e.isDirectory = true) :
    below tables (fuel + 1) depth (e :: rest) = (do
      let inner ← below tables fuel (depth + 1) (tables (Word.wide e.sector)).list
      let after ← below tables (fuel + 1) depth rest
      return (depth, e) :: inner ++ after) := by
  rw [below, if_pos he]

theorem below_endless (he : e.isDirectory = true) :
    below tables 0 depth (e :: rest) = .error (.broken .endless) := by
  rw [below, if_pos he]
  rfl

end

theorem exists_of_listed {path : String} {entries : List Entry} (h : listed m path = .ok entries) :
    ∃ d, Reached m d ∧ entries = (table m d).list := by
  unfold listed at h
  split at h
  · cases h
  split at h
  · cases h
  · rename_i hwalk
    exact ⟨_, reached_walk .root hwalk, (Except.ok.inj h).symm⟩

/-- All entries below the directory at a path, with their depths. -/
def listedTree (m : Medium) (count : Nat) (path : String) : Except Failure (List (Nat × Entry)) :=
  match listed m path with
  | .error cause => .error (.refused cause)
  | .ok entries => below (table m) (count + 1) 0 entries

theorem listedTree_eq (path : String) : listedTree m count path
    = (listed m path).mapError .refused >>= below (table m) (count + 1) 0 := by
  rw [listedTree]
  cases listed m path with
  | error cause => rfl
  | ok entries => rfl

/-! ## What it depends on -/

section

variable (h : SameEntries m m')
include h

theorem walk_congr {p : Int32} {walked names : List String} (hp : Reached m (Word.wide p)) :
    walk (table m') p walked names = walk (table m) p walked names := by
  induction names generalizing p walked with
  | nil => rw [walk, walk]
  | cons name rest ih =>
    have hfind : (table m' (Word.wide p)).find? name = (table m (Word.wide p)).find? name := by
      rw [Directory.find?_eq_find?_list, Directory.find?_eq_find?_list, h _ hp]
    cases he : (table m (Word.wide p)).find? name with
    | none => rw [walk_none (hfind.trans he), walk_none he]
    | some e =>
      by_cases hdir : e.isDirectory = true
      · obtain ⟨i, hi, -⟩ := exists_slot he
        rw [walk_directory (hfind.trans he) hdir, walk_directory he hdir, ih (.child hp hi hdir)]
      · rw [walk_file (hfind.trans he) hdir, walk_file he hdir]

theorem found_congr (path : String) : found m' path = found m path := by
  unfold found
  cases Path.splitLast path with
  | error cause => rfl
  | ok split =>
    dsimp only
    rw [walk_congr h .root]
    cases hwalk : walk (table m) rootSector [] split.1 with
    | error cause => rfl
    | ok p =>
      dsimp only
      rw [foundIn, foundIn, Directory.find?_eq_find?_list, Directory.find?_eq_find?_list,
        h _ (reached_walk .root hwalk)]

theorem listed_congr (path : String) : listed m' path = listed m path := by
  unfold listed
  cases Path.split path with
  | error cause => rfl
  | ok names =>
    dsimp only
    rw [walk_congr h .root]
    cases hwalk : walk (table m) rootSector [] names with
    | error cause => rfl
    | ok p =>
      dsimp only
      rw [h _ (reached_walk .root hwalk)]

theorem below_congr (fuel depth : Nat) {entries : List Entry}
    (hentries : ∀ e ∈ entries, e.isDirectory = true → Reached m (Word.wide e.sector)) :
    below (table m') fuel depth entries = below (table m) fuel depth entries := by
  induction fuel, depth, entries using below.induct (table m) with
  | case1 fuel depth => rw [below, below]
  | case2 depth e rest hdir ih => rw [below_endless hdir, below_endless hdir]
  | case3 depth e rest hdir fuel ihAfter ihInner =>
    have he := hentries e (List.mem_cons_self ..) hdir
    rw [below_directory hdir, below_directory hdir, h _ he, ihInner (reached_of_mem he),
      ihAfter fun e he => hentries e (List.mem_cons_of_mem _ he)]
  | case4 fuel depth e rest hfile ih =>
    rw [below_file hfile, below_file hfile, ih fun e he => hentries e (List.mem_cons_of_mem _ he)]

theorem listedTree_congr (path : String) : listedTree m' count path = listedTree m count path := by
  unfold listedTree
  rw [listed_congr h]
  cases hlisted : listed m path with
  | error cause => rfl
  | ok entries =>
    refine below_congr h _ _ ?_
    obtain ⟨d, hd, rfl⟩ := exists_of_listed hlisted
    exact reached_of_mem hd

end

/-! ## Answers -/

namespace Consistent

variable (hc : Consistent m count)
include hc

theorem answers_openPath (path : String) : Answers m count ((Volume.on m).openPath path)
    (((found m path).map fun e => opened m e.sector).mapError .refused) := by
  unfold Volume.openPath found
  cases hsplit : Path.splitLast path with
  | error cause => exact Answers.error_bind rfl
  | ok split =>
    obtain ⟨parents, name⟩ := split
    refine Answers.ok_bind rfl ?_
    have hresolve := hc.answers_resolve parents
    dsimp only
    cases hwalk : walk (table m) rootSector [] parents with
    | error cause =>
      rw [hwalk] at hresolve
      exact hresolve.bind_error
    | ok p =>
      have hleads : LeadsTo m path p name := ⟨parents, hsplit, hwalk⟩
      -- the table is kept under a name, so that nothing tries to evaluate it
      obtain ⟨d, hd⟩ : ∃ d, table m (Word.wide p) = d := ⟨_, rfl⟩
      rw [hwalk, delivered, hd] at hresolve
      refine hresolve.bind ?_
      dsimp only
      rw [hd, foundIn]
      cases hfind : d.find? name with
      | none => exact Answers.refuse _
      | some e =>
        rw [← hd] at hfind
        obtain ⟨i, hi, -⟩ := exists_slot hfind
        exact hc.answers_openFile (.entry hleads.reached hi)

/-- What is done at the directory of a path waits until the names are followed. -/
theorem answers_within {α : Type} (path : String) {f : OpenFile × Directory → DiskM α}
    {g : List Entry → Except Failure α}
    (h : ∀ p, Reached m (Word.wide p) →
      Answers m count (f (opened m p, table m (Word.wide p)))
        (g (table m (Word.wide p)).list)) :
    Answers m count (do
      let names ← Path.split path
      let file ← (Volume.on m).resolve names
      f file) ((listed m path).mapError .refused >>= g) := by
  unfold listed
  cases Path.split path with
  | error cause => exact Answers.error_bind rfl
  | ok names =>
    refine Answers.ok_bind rfl ?_
    have hresolve := hc.answers_resolve names
    dsimp only
    cases hwalk : walk (table m) rootSector [] names with
    | error cause =>
      rw [hwalk] at hresolve
      exact hresolve.bind_error
    | ok p =>
      rw [hwalk] at hresolve
      exact hresolve.bind (h p (reached_walk .root hwalk))

theorem answers_list (path : String) :
    Answers m count ((Volume.on m).list path) ((listed m path).mapError .refused) := by
  have h := hc.answers_within path (f := fun file => pure file.2.list) (g := pure)
    fun _ _ => Answers.pure _
  rwa [bind_pure] at h

/-- What lies below directories that can be reached is read from their tables. -/
theorem answers_subtree (fuel depth : Nat) {entries : List Entry}
    (h : ∀ e ∈ entries, e.isDirectory = true → Reached m (Word.wide e.sector)) :
    Answers m count (Directory.subtree fuel depth entries)
      (below (table m) fuel depth entries) := by
  -- along the listing: a directory is followed down before what comes after it
  induction fuel, depth, entries using below.induct (table m) with
  | case1 fuel depth =>
    rw [Directory.subtree, below]
    exact Answers.pure []
  | case2 depth e rest hdir ih =>
    rw [Directory.subtree, if_pos hdir, below_endless hdir]
    exact (Answers.breach _).bind_error
  | case3 depth e rest hdir fuel ihAfter ihInner =>
    have hrest := ihAfter fun e he => h e (List.mem_cons_of_mem _ he)
    have he := h e (List.mem_cons_self ..) hdir
    rw [Directory.subtree, if_pos hdir, below_directory hdir]
    exact (hc.answers_openAt he).bind ((ihInner (reached_of_mem he)).seq fun inner _ =>
      hrest.seq fun after _ => Answers.pure _)
  | case4 fuel depth e rest hfile ih =>
    rw [Directory.subtree_file hfile, below_file hfile]
    exact (ih fun e he => h e (List.mem_cons_of_mem _ he)).seq fun after _ => Answers.pure _

theorem answers_listTree (path : String) :
    Answers m count ((Volume.on m).listTree path) (listedTree m count path) := by
  rw [listedTree_eq]
  exact hc.answers_within path fun p hp =>
    (Answers.of_nil Follows.sectorCount).bind (hc.answers_subtree _ _ (reached_of_mem hp))

end Consistent

end Tree

end IndexedDisk
