import IndexedDisk.Proofs.Labels

/-!
# The listing of the whole tree

The listing of the tree is a tour of it (`Tour`): the entries of a directory come in the order of
their slots, and what lies below an entry comes right after it. It gives no paths, but they can be
put together from it (`Listing.joined`). These are the paths under which files are found, each of
them once, and the directories list what is found one level below them.

* `Tour.mem_iff_entryAt`: the entries of a tour are those at the end of some names.
* `Tour.nodup_paths`: no path comes twice.
* `Tour.children_of_walk`: what comes one level below a directory is its list.
* `Tour.joined_eq`: the paths are put together right.
-/

open IndexedDisk.Tree

namespace IndexedDisk

seal Tree.table

/-! ## Putting paths together -/

namespace Listing

/--
The names of the nearest entries before that are less deep, one of each depth from the root on. The
entries before are given from the last to the first.
-/
def ancestors (earlier : List (Nat × Entry)) (depth : Nat) : List String :=
  (List.range depth).filterMap fun k => (earlier.find? (·.1 == k)).map (·.2.name)

/-- The entries of a listing, each with the names of its ancestors and its own. -/
def joined (earlier : List (Nat × Entry)) : List (Nat × Entry) → List (List String × Entry)
  | [] => []
  | x :: rest => (ancestors earlier x.1 ++ [x.2.name], x.2) :: joined (x :: earlier) rest

/-- An entry as it is listed, if these names lead to it. -/
def unjoined (x : List String × Entry) : Nat × Entry := (x.1.length - 1, x.2)

variable {earlier : List (Nat × Entry)}

theorem joined_append (xs ys : List (Nat × Entry)) :
    joined earlier (xs ++ ys) = joined earlier xs ++ joined (xs.reverse ++ earlier) ys := by
  induction xs generalizing earlier with
  | nil => rfl
  | cons x xs ih =>
    rw [List.cons_append, joined, joined, ih, List.reverse_cons, List.append_assoc]
    rfl

theorem ancestors_append {xs : List (Nat × Entry)} {depth : Nat} (h : ∀ x ∈ xs, depth ≤ x.1) :
    ancestors (xs ++ earlier) depth = ancestors earlier depth := by
  refine List.filterMap_congr fun k hk => ?_
  have hnone : xs.find? (·.1 == k) = none := by
    refine List.find?_eq_none.mpr fun x hx heq => ?_
    have hle := h x hx
    have hlt := List.mem_range.mp hk
    have : x.1 = k := by simpa using heq
    omega
  rw [List.find?_append, hnone, Option.none_or]

theorem ancestors_cons_self (e : Entry) (depth : Nat) :
    ancestors ((depth, e) :: earlier) depth = ancestors earlier depth := by
  show ancestors ([(depth, e)] ++ earlier) depth = _
  exact ancestors_append (List.forall_mem_singleton.mpr (Nat.le_refl _))

theorem ancestors_cons_succ (e : Entry) (depth : Nat) :
    ancestors ((depth, e) :: earlier) (depth + 1) = ancestors earlier depth ++ [e.name] := by
  rw [ancestors, List.range_succ, List.filterMap_append, ← ancestors, ancestors_cons_self]
  simp

end Listing

open Listing

namespace Tree

/--
What is met on a tour of entries, with the names that lead there: each entry comes after those
before it and all that lies below them. The names `pre` lead to the directory of the entries.
-/
inductive Tour (tables : Nat → Directory) :
    List String → List Entry → List (List String × Entry) → Prop
  | nil {pre} : Tour tables pre [] []
  | file {pre e rest after} (hfile : ¬ e.isDirectory = true)
      (hafter : Tour tables pre rest after) :
      Tour tables pre (e :: rest) ((pre ++ [e.name], e) :: after)
  | directory {pre e rest inner after} (hdir : e.isDirectory = true)
      (hinner : Tour tables (pre ++ [e.name]) (tables (Word.wide e.sector)).list inner)
      (hafter : Tour tables pre rest after) :
      Tour tables pre (e :: rest) ((pre ++ [e.name], e) :: (inner ++ after))

/-- Names lead from these entries to one of them, or to one that lies below them. -/
inductive Along (tables : Nat → Directory) : List Entry → List String → Entry → Prop
  | here {entries e} (he : e ∈ entries) : Along tables entries [e.name] e
  | inside {entries d names e} (hd : d ∈ entries) (hdir : d.isDirectory = true)
      (h : Along tables (tables (Word.wide d.sector)).list names e) :
      Along tables entries (d.name :: names) e

variable {m : Medium} {count : Nat} {tables : Nat → Directory} {pre names : List String}
  {entries : List Entry} {out : List (List String × Entry)} {e : Entry}

/-! ## The listing is a tour -/

theorem exists_of_bind_ok {α β : Type} {x : Except Failure α} {f : α → Except Failure β} {b : β}
    (h : x >>= f = .ok b) : ∃ a, x = .ok a ∧ f a = .ok b := by
  cases x with
  | error cause => cases h
  | ok a => exact ⟨a, rfl, h⟩

/-- What is listed below entries is a tour of them. -/
theorem exists_tour {fuel : Nat} {found : List (Nat × Entry)}
    (h : below tables fuel pre.length entries = .ok found) :
    ∃ out, Tour tables pre entries out ∧ found = out.map unjoined := by
  have hlength (pre : List String) (e : Entry) : pre.length + 1 = (pre ++ [e.name]).length := by
    rw [List.length_append, List.length_singleton]
  have hunjoined (pre : List String) (e : Entry) :
      unjoined (pre ++ [e.name], e) = (pre.length, e) := by
    rw [unjoined, ← hlength, Nat.add_sub_cancel]
  generalize hdepth : pre.length = depth at h
  induction fuel, depth, entries using below.induct tables generalizing pre found with
  | case1 fuel depth =>
    rw [below] at h
    cases h
    exact ⟨[], .nil, rfl⟩
  | case2 depth e rest hdir ih =>
    rw [below_endless hdir] at h
    cases h
  | case3 depth e rest hdir fuel ihAfter ihInner =>
    subst hdepth
    rw [below_directory hdir] at h
    obtain ⟨inner, hinner, h⟩ := exists_of_bind_ok h
    obtain ⟨after, hafter, h⟩ := exists_of_bind_ok h
    obtain ⟨out, hout, rfl⟩ := ihInner (hlength pre e).symm hinner
    obtain ⟨out', hout', rfl⟩ := ihAfter rfl hafter
    refine ⟨_, .directory hdir hout hout', ?_⟩
    rw [← Except.ok.inj h, List.map_cons, List.map_append, hunjoined]
    rfl
  | case4 fuel depth e rest hfile ih =>
    subst hdepth
    rw [below_file hfile] at h
    obtain ⟨after, hafter, h⟩ := exists_of_bind_ok h
    obtain ⟨out, hout, rfl⟩ := ih rfl hafter
    refine ⟨_, .file hfile hout, ?_⟩
    rw [← Except.ok.inj h, List.map_cons, hunjoined]

/-! ## What a tour meets -/

theorem Along.exists_cons (h : Along tables entries names e) :
    ∃ d ∈ entries, ∃ tail, names = d.name :: tail := by
  cases h with
  | here he => exact ⟨e, he, [], rfl⟩
  | inside hd hdir h => exact ⟨_, hd, _, rfl⟩

theorem Along.cons {d : Entry} (h : Along tables entries names e) :
    Along tables (d :: entries) names e := by
  cases h with
  | here he => exact .here (List.mem_cons_of_mem _ he)
  | inside hd hdir h => exact .inside (List.mem_cons_of_mem _ hd) hdir h

namespace Tour

variable (h : Tour tables pre entries out)
include h

theorem mem_iff : (names, e) ∈ out ↔ ∃ rest, names = pre ++ rest ∧ Along tables entries rest e := by
  induction h with
  | nil =>
    refine ⟨nofun, ?_⟩
    rintro ⟨rest, -, halong⟩
    obtain ⟨d, hd, -⟩ := halong.exists_cons
    cases hd
  | @file pre d rest after hfile _ ih =>
    rw [List.mem_cons, ih]
    constructor
    · rintro (heq | ⟨names, rfl, halong⟩)
      · obtain ⟨rfl, rfl⟩ := Prod.mk.inj heq
        exact ⟨[e.name], rfl, .here (List.mem_cons_self ..)⟩
      · exact ⟨names, rfl, halong.cons⟩
    · rintro ⟨names, rfl, halong⟩
      cases halong with
      | here he =>
        rcases List.mem_cons.mp he with rfl | he
        · exact .inl rfl
        · exact .inr ⟨_, rfl, .here he⟩
      | inside hd hdir halong =>
        rcases List.mem_cons.mp hd with rfl | hd
        · exact absurd hdir hfile
        · exact .inr ⟨_, rfl, .inside hd hdir halong⟩
  | @directory pre d rest inner after hdir _ _ ihInner ih =>
    rw [List.mem_cons, List.mem_append, ihInner, ih]
    constructor
    · rintro (heq | ⟨names, rfl, halong⟩ | ⟨names, rfl, halong⟩)
      · obtain ⟨rfl, rfl⟩ := Prod.mk.inj heq
        exact ⟨[e.name], rfl, .here (List.mem_cons_self ..)⟩
      · refine ⟨d.name :: names, ?_, .inside (List.mem_cons_self ..) hdir halong⟩
        rw [List.append_assoc, List.singleton_append]
      · exact ⟨names, rfl, halong.cons⟩
    · rintro ⟨names, rfl, halong⟩
      cases halong with
      | here he =>
        rcases List.mem_cons.mp he with rfl | he
        · exact .inl rfl
        · exact .inr (.inr ⟨_, rfl, .here he⟩)
      | @inside _ d' names _ hd hdir' halong =>
        rcases List.mem_cons.mp hd with rfl | hd
        · refine .inr (.inl ⟨names, ?_, halong⟩)
          rw [List.append_assoc, List.singleton_append]
        · exact .inr (.inr ⟨_, rfl, .inside hd hdir' halong⟩)

theorem exists_prefix {x : List String × Entry} (hx : x ∈ out) :
    ∃ d ∈ entries, pre ++ [d.name] <+: x.1 := by
  obtain ⟨names, e⟩ := x
  obtain ⟨rest, rfl, halong⟩ := h.mem_iff.mp hx
  obtain ⟨d, hd, tail, rfl⟩ := halong.exists_cons
  refine ⟨d, hd, tail, ?_⟩
  rw [List.append_assoc, List.singleton_append]

theorem length_lt {x : List String × Entry} (hx : x ∈ out) : pre.length < x.1.length := by
  obtain ⟨d, -, hbelow⟩ := h.exists_prefix hx
  have hle := hbelow.length_le
  rw [List.length_append, List.length_singleton] at hle
  omega

theorem prefix_dropLast {x : List String × Entry} (hx : x ∈ out) : pre <+: x.1.dropLast := by
  obtain ⟨d, -, tail, heq⟩ := h.exists_prefix hx
  refine ⟨(d.name :: tail).dropLast, ?_⟩
  rw [← heq, List.append_assoc, List.singleton_append,
    List.dropLast_append_of_ne_nil (List.cons_ne_nil _ _)]

theorem joined_eq {earlier : List (Nat × Entry)} (hpre : ancestors earlier pre.length = pre) :
    joined earlier (out.map unjoined) = out := by
  have hunjoined (pre : List String) (e : Entry) :
      unjoined (pre ++ [e.name], e) = (pre.length, e) := by
    rw [unjoined, List.length_append, List.length_singleton, Nat.add_sub_cancel]
  induction h generalizing earlier with
  | nil => rfl
  | @file pre e rest after hfile _ ih =>
    rw [List.map_cons, hunjoined, joined, hpre, ih]
    rw [ancestors_cons_self, hpre]
  | @directory pre e rest inner after hdir hinner _ ihInner ih =>
    have hdeep : ∀ x ∈ (inner.map unjoined).reverse ++ [(pre.length, e)], pre.length ≤ x.1 := by
      intro x hx
      rcases List.mem_append.mp hx with hx | hx
      · obtain ⟨y, hy, rfl⟩ := List.mem_map.mp (List.mem_reverse.mp hx)
        have hlt := hinner.length_lt hy
        rw [List.length_append, List.length_singleton] at hlt
        show pre.length ≤ y.1.length - 1
        omega
      · exact List.mem_singleton.mp hx ▸ Nat.le_refl _
    have hinner' : joined ((pre.length, e) :: earlier) (inner.map unjoined) = inner := by
      apply ihInner
      rw [List.length_append, List.length_singleton, ancestors_cons_succ, hpre]
    rw [List.map_cons, List.map_append, hunjoined, joined, hpre, joined_append, hinner', ih]
    rw [List.append_cons, ancestors_append hdeep, hpre]

theorem filter_eq_nil (hlt : pre.length < names.length)
    (hnot : ∀ d ∈ entries, ¬ pre ++ [d.name] <+: names) :
    out.filter (·.1.dropLast == names) = [] := by
  refine List.filter_eq_nil_iff.mpr fun x hx heq => ?_
  obtain rfl : x.1.dropLast = names := by simpa using heq
  obtain ⟨d, hd, hbelow⟩ := h.exists_prefix hx
  refine hnot d hd (List.prefix_of_prefix_length_le hbelow (List.dropLast_prefix _) ?_)
  rw [List.length_append, List.length_singleton]
  omega

theorem children_eq : (out.filter (·.1.dropLast == pre)).map Prod.snd = entries := by
  induction h with
  | nil => rfl
  | file _ _ ih => rw [List.filter_cons_of_pos (by simp), List.map_cons, ih]
  | @directory pre e rest inner after _ hinner _ _ ih =>
    have hinner' : inner.filter (·.1.dropLast == pre) = [] := by
      refine List.filter_eq_nil_iff.mpr fun x hx heq => ?_
      have hle := (hinner.prefix_dropLast hx).length_le
      have heq : x.1.dropLast = pre := by simpa using heq
      rw [heq, List.length_append, List.length_singleton] at hle
      omega
    rw [List.filter_cons_of_pos (by simp), List.filter_append, hinner', List.nil_append,
      List.map_cons, ih]

end Tour

/-! ## Tours of well-named trees -/

/-- The names of one directory tell apart what lies below its entries. -/
theorem name_eq_of_both {a b : Entry} (ha : pre ++ [a.name] <+: names)
    (hb : pre ++ [b.name] <+: names) : a.name = b.name := by
  have heq := (List.prefix_of_prefix_length_le ha hb (by simp)).eq_of_length (by simp)
  simpa using heq

section

variable (hw : WellNamed m) (h : Tour (table m) pre entries out)
  (hnodup : (entries.map Entry.name).Nodup)
  (hreached : ∀ e ∈ entries, e.isDirectory = true → Reached m (Word.wide e.sector))
include hw h hnodup hreached

theorem Tour.nodup_paths : (out.map Prod.fst).Nodup := by
  induction h with
  | nil => exact List.nodup_nil
  | @file pre e rest after _ hafter ih =>
    obtain ⟨hhead, hnodup⟩ := List.nodup_cons.mp hnodup
    rw [List.map_cons, List.nodup_cons]
    refine ⟨fun hmem => ?_, ih hnodup fun e he => hreached e (List.mem_cons_of_mem _ he)⟩
    obtain ⟨x, hx, heq⟩ := List.mem_map.mp hmem
    obtain ⟨d, hd, hbelow⟩ := hafter.exists_prefix hx
    rw [heq] at hbelow
    exact hhead (name_eq_of_both hbelow (List.prefix_refl _) ▸ List.mem_map_of_mem hd)
  | @directory pre e rest inner after hdir hinner hafter ihInner ih =>
    obtain ⟨hhead, hnodup⟩ := List.nodup_cons.mp hnodup
    have he := hreached e (List.mem_cons_self ..) hdir
    -- what comes after the entry starts with another name
    have hother {x : List String × Entry} (hx : x ∈ after) : ¬ pre ++ [e.name] <+: x.1 := by
      intro hbelow
      obtain ⟨d, hd, hbelow'⟩ := hafter.exists_prefix hx
      exact hhead (name_eq_of_both hbelow' hbelow ▸ List.mem_map_of_mem hd)
    rw [List.map_cons, List.map_append, List.nodup_cons, List.nodup_append]
    refine ⟨fun hmem => ?_, ihInner (hw.nodup_names he) (reached_of_mem he),
      ih hnodup fun e he => hreached e (List.mem_cons_of_mem _ he), ?_⟩
    · rcases List.mem_append.mp hmem with hmem | hmem
      · obtain ⟨x, hx, heq⟩ := List.mem_map.mp hmem
        have hlt := hinner.length_lt hx
        rw [heq] at hlt
        exact Nat.lt_irrefl _ hlt
      · obtain ⟨x, hx, heq⟩ := List.mem_map.mp hmem
        exact hother hx (heq ▸ List.prefix_refl _)
    · rintro _ hx _ hy rfl
      obtain ⟨x, hx', rfl⟩ := List.mem_map.mp hx
      obtain ⟨y, hy', heq⟩ := List.mem_map.mp hy
      refine hother hy' (heq ▸ ?_)
      exact (hinner.prefix_dropLast hx').trans (List.dropLast_prefix _)

theorem Tour.children_below {d : Entry} (hdir : d.isDirectory = true) (hmem : (names, d) ∈ out) :
    (out.filter (·.1.dropLast == names)).map Prod.snd = (table m (Word.wide d.sector)).list := by
  have hskip {pre : List String} {e : Entry} {rest : List (List String × Entry)}
      (hlt : pre.length < names.length) :
      ((pre ++ [e.name], e) :: rest).filter (·.1.dropLast == names)
        = rest.filter (·.1.dropLast == names) := by
    refine List.filter_cons_of_neg fun heq => ?_
    have heq : pre = names := by simpa using heq
    exact Nat.ne_of_lt hlt (congrArg List.length heq)
  induction h with
  | nil => cases hmem
  | @file pre e rest after hfile hafter ih =>
    rcases List.mem_cons.mp hmem with heq | hmem
    · obtain ⟨-, rfl⟩ := Prod.mk.inj heq
      exact absurd hdir hfile
    · rw [hskip (hafter.length_lt hmem)]
      exact ih (List.nodup_cons.mp hnodup).2
        (fun e he => hreached e (List.mem_cons_of_mem _ he)) hmem
  | @directory pre e rest inner after hdir' hinner hafter ihInner ih =>
    obtain ⟨hhead, hnodup⟩ := List.nodup_cons.mp hnodup
    have he := hreached e (List.mem_cons_self ..) hdir'
    have hother {d : Entry} (hd : d ∈ rest) (hbelow : pre ++ [d.name] <+: names) :
        ¬ pre ++ [e.name] <+: names := by
      intro hbelow'
      exact hhead (name_eq_of_both hbelow hbelow' ▸ List.mem_map_of_mem hd)
    -- either the directory is the entry or lies below it, or it comes after it
    have hcases : pre ++ [e.name] <+: names ∧ (inner.filter (·.1.dropLast == names)).map Prod.snd
        = (table m (Word.wide d.sector)).list ∨ (names, d) ∈ after := by
      rcases List.mem_cons.mp hmem with heq | hmem
      · obtain ⟨rfl, rfl⟩ := Prod.mk.inj heq
        exact .inl ⟨List.prefix_refl _, hinner.children_eq⟩
      · rcases List.mem_append.mp hmem with hmem | hmem
        · refine .inl ⟨?_, ihInner (hw.nodup_names he) (reached_of_mem he) hmem⟩
          exact (hinner.prefix_dropLast hmem).trans (List.dropLast_prefix _)
        · exact .inr hmem
    rcases hcases with ⟨hbelow, hinner'⟩ | hmem
    · have hlt : pre.length < names.length := by
        have hle := hbelow.length_le
        rw [List.length_append, List.length_singleton] at hle
        omega
      rw [hskip hlt, List.filter_append,
        hafter.filter_eq_nil hlt fun d hd hbelow' => hother hd hbelow' hbelow,
        List.append_nil, hinner']
    · obtain ⟨d', hd', hbelow⟩ := hafter.exists_prefix hmem
      have hinner' : inner.filter (·.1.dropLast == names) = [] := by
        refine List.filter_eq_nil_iff.mpr fun x hx heq => hother hd' hbelow ?_
        have heq : x.1.dropLast = names := by simpa using heq
        exact heq ▸ hinner.prefix_dropLast hx
      rw [hskip (hafter.length_lt hmem), List.filter_append, hinner', List.nil_append]
      exact ih hnodup (fun e he => hreached e (List.mem_cons_of_mem _ he)) hmem

end

/-! ## Where the names of a tour lead -/

theorem WellNamed.find?_eq_some_iff (hw : WellNamed m) {d : Nat} (hd : Reached m d)
    {name : String} : (table m d).find? name = some e ↔ e ∈ (table m d).list ∧ e.name = name := by
  constructor
  · intro h
    rw [Directory.find?_eq_find?_list] at h
    exact ⟨List.mem_of_find?_eq_some h, by simpa using List.find?_some h⟩
  · rintro ⟨he, rfl⟩
    obtain ⟨i, hi⟩ := exists_slot_of_mem e he
    obtain ⟨hget, hused⟩ := slot?_eq_some.mp hi
    exact Directory.find?_eq_of_distinct hget hused fun j e' hj hused' heq =>
      hw.distinct hd (slot?_eq_some.mpr ⟨hj, hused'⟩) hi heq

theorem along_iff (hw : WellNamed m) {p : Int32} {walked : List String}
    (hp : Reached m (Word.wide p)) :
    Along (table m) (table m (Word.wide p)).list names e ↔ ∃ before name q,
      names = before ++ [name] ∧ walk (table m) p walked before = .ok q ∧
        (table m (Word.wide q)).find? name = some e := by
  constructor
  · intro h
    generalize hentries : (table m (Word.wide p)).list = entries at h
    induction h generalizing p walked with
    | @here entries e he =>
      subst hentries
      exact ⟨[], e.name, p, rfl, by rw [walk], (hw.find?_eq_some_iff hp).mpr ⟨he, rfl⟩⟩
    | @inside entries d names e hd hdir h ih =>
      subst hentries
      obtain ⟨before, name, q, rfl, hwalk, hfind⟩ := @ih d.sector (walked ++ [d.name])
        (reached_of_mem hp d hd hdir) rfl
      refine ⟨d.name :: before, name, q, rfl, ?_, hfind⟩
      rw [walk_directory ((hw.find?_eq_some_iff hp).mpr ⟨hd, rfl⟩) hdir, hwalk]
  · rintro ⟨before, name, q, rfl, hwalk, hfind⟩
    induction before generalizing p walked with
    | nil =>
      obtain rfl : p = q := Except.ok.inj hwalk
      obtain ⟨he, rfl⟩ := (hw.find?_eq_some_iff hp).mp hfind
      exact .here he
    | cons first before ih =>
      cases hfirst : (table m (Word.wide p)).find? first with
      | none =>
        rw [walk_none hfirst] at hwalk
        cases hwalk
      | some d =>
        by_cases hdir : d.isDirectory = true
        · rw [walk_directory hfirst hdir] at hwalk
          obtain ⟨hd, rfl⟩ := (hw.find?_eq_some_iff hp).mp hfirst
          exact .inside hd hdir (ih (reached_of_mem hp d hd hdir) hwalk)
        · rw [walk_file hfirst hdir] at hwalk
          cases hwalk

theorem along_iff_entryAt (hw : WellNamed m) :
    Along (table m) (table m (Word.wide rootSector)).list names e ↔ EntryAt m names e :=
  along_iff hw .root

theorem WellNamed.plain_of_along (hw : WellNamed m) {d : Nat} (hd : Reached m d)
    (h : Along (table m) (table m d).list names e) : ∀ name ∈ names, Path.Plain name := by
  generalize hentries : (table m d).list = entries at h
  induction h generalizing d with
  | here he =>
    subst hentries
    exact List.forall_mem_singleton.mpr (hw.plain_of_mem hd he)
  | inside hd' hdir h ih =>
    subst hentries
    exact List.forall_mem_cons.mpr ⟨hw.plain_of_mem hd hd', ih (reached_of_mem hd _ hd' hdir) rfl⟩

theorem exists_walk_iff : (∃ p, walk (table m) rootSector [] names = .ok p) ↔
    names = [] ∨ ∃ e, EntryAt m names e ∧ e.isDirectory = true := by
  rcases List.eq_nil_or_concat names with rfl | ⟨before, name, rfl⟩
  · exact ⟨fun _ => .inl rfl, fun _ => ⟨rootSector, by rw [walk]⟩⟩
  · rw [List.concat_eq_append]
    constructor
    · rintro ⟨p, hp⟩
      obtain ⟨q, e, hq, hfind, hdir, -⟩ := walk_concat_eq_ok.mp hp
      exact .inr ⟨e, (entryAt_concat hq).mpr hfind, hdir⟩
    · rintro (h | ⟨e, ⟨before', name', q, heq, hq, hfind⟩, hdir⟩)
      · simp at h
      · rw [heq]
        exact ⟨_, walk_concat_eq_ok.mpr ⟨q, e, hq, hfind, hdir, rfl⟩⟩

theorem WellNamed.plain_of_entryAt (hw : WellNamed m) (h : EntryAt m names e) :
    ∀ name ∈ names, Path.Plain name := hw.plain_of_along .root ((along_iff_entryAt hw).mpr h)

theorem WellNamed.not_relative_of_entryAt (hw : WellNamed m) (h : EntryAt m names e) :
    names.find? Path.isRelative = none :=
  List.find?_eq_none.mpr fun name hname => (hw.plain_of_entryAt h name hname).not_relative

section

variable (hw : WellNamed m) (h : Tour (table m) [] (table m (Word.wide rootSector)).list out)
include hw h

/-- The entries of a tour of the whole tree are those that paths lead to. -/
theorem Tour.mem_iff_entryAt : (names, e) ∈ out ↔ EntryAt m names e := by
  rw [h.mem_iff, ← along_iff_entryAt hw]
  constructor
  · rintro ⟨_, rfl, halong⟩
    exact halong
  · intro halong
    exact ⟨names, rfl, halong⟩

/-- What comes one level below some names is the list of the directory that they lead to. -/
theorem Tour.children_of_walk {p : Int32} (hwalk : walk (table m) rootSector [] names = .ok p) :
    (out.filter (·.1.dropLast == names)).map Prod.snd = (table m (Word.wide p)).list := by
  rcases List.eq_nil_or_concat names with rfl | ⟨before, name, rfl⟩
  · obtain rfl : rootSector = p := Except.ok.inj hwalk
    exact h.children_eq
  · rw [List.concat_eq_append] at hwalk ⊢
    obtain ⟨q, e, hq, hfind, hdir, rfl⟩ := walk_concat_eq_ok.mp hwalk
    exact h.children_below hw (hw.nodup_names .root) (reached_of_mem .root) hdir
      ((h.mem_iff_entryAt hw).mpr ((entryAt_concat hq).mpr hfind))

end

end Tree

/--
The answer to a request for the whole tree, and what it says about the paths that lead to files. In
the order of a tour, each entry comes with the number of its ancestors.
-/
structure FileSystem.Toured (fs : FileSystem) (entries : List (Nat × Entry)) : Prop where
  listTree : ((Request.listTree "/").perform fs).1 = .listedTree entries
  tour : Tour (table fs.disk.medium) [] (table fs.disk.medium (Word.wide rootSector)).list
    (joined [] entries)
  depth : entries.map Prod.fst = (joined [] entries).map (·.1.length - 1)
  nodup : ((joined [] entries).map Prod.fst).Nodup
  /-- The paths of the listing can be written, and are read back. -/
  written : ∀ x ∈ joined [] entries, Path.names (Path.ofNames x.1) = x.1
  open_iff : ∀ path, (∃ f fs', FileSystem.openPath path fs = .ok f fs') ↔
    ∃ e, (Path.names path, e) ∈ joined [] entries
  sector_eq : ∀ path e f fs', (Path.names path, e) ∈ joined [] entries →
    FileSystem.openPath path fs = .ok f fs' → f.sector = e.sector
  /-- Directories can be listed, and nothing else. -/
  list_iff : ∀ path, (∃ l, ((Request.list path).perform fs).1 = .listed l) ↔
    Path.names path = [] ∨ ∃ e, (Path.names path, e) ∈ joined [] entries ∧ e.isDirectory = true
  /-- What is listed is what comes one level below in the tour. -/
  list_eq : ∀ path l, ((Request.list path).perform fs).1 = .listed l →
    l = ((joined [] entries).filter (·.1.dropLast == Path.names path)).map Prod.snd

namespace FileSystem.Healthy

variable {fs : FileSystem} (h : fs.Healthy)
include h

theorem exists_tour : ∃ out,
    Tour (table fs.disk.medium) [] (table fs.disk.medium (Word.wide rootSector)).list out ∧
      ((Request.listTree "/").perform fs).1 = .listedTree (out.map unjoined) := by
  have hsplit : Path.split "/" = .ok [] := by decide
  have hlisted : listed fs.disk.medium "/"
      = .ok (table fs.disk.medium (Word.wide rootSector)).list := by
    rw [listed, hsplit]
    dsimp only
    rw [walk]
  have hfuel : fs.disk.count < fs.disk.count + 1 + [Word.wide rootSector].length := by
    rw [List.length_singleton]
    omega
  have hbelow : ∃ found, below (table fs.disk.medium) (fs.disk.count + 1) 0
      (table fs.disk.medium (Word.wide rootSector)).list = .ok found :=
    h.sound.consistent.exists_below 0 .root hfuel exists_slot_of_mem
  obtain ⟨found, hfound⟩ := hbelow
  have htour : ∃ out, Tour _ [] _ out ∧ found = out.map unjoined := Tree.exists_tour hfound
  obtain ⟨out, hout, rfl⟩ := htour
  refine ⟨out, hout, ?_⟩
  rw [h.perform_listTree, listedTree, hlisted]
  dsimp only
  rw [hfound]
  rfl

theorem list_eq_iff {path : String} {l : List Entry} :
    ((Request.list path).perform fs).1 = .listed l ↔
      (Path.names path).find? Path.isRelative = none ∧ ∃ p,
        walk (table fs.disk.medium) rootSector [] (Path.names path) = .ok p ∧
          (table fs.disk.medium (Word.wide p)).list = l := by
  rw [h.perform_list, listed, Path.split]
  cases (Path.names path).find? Path.isRelative with
  | some name =>
    constructor
    · rintro ⟨⟩
    · rintro ⟨⟨⟩, -⟩
  | none =>
    dsimp only
    cases hwalk : walk (table fs.disk.medium) rootSector [] (Path.names path) with
    | error cause =>
      constructor
      · rintro ⟨⟩
      · rintro ⟨-, _, ⟨⟩, -⟩
    | ok p =>
      constructor
      · intro heq
        exact ⟨rfl, p, rfl, Response.listed.inj heq⟩
      · rintro ⟨-, _, ⟨⟩, rfl⟩
        rfl

theorem openPath_eq_ok_iff {path : String} {f : OpenFile} :
    (∃ fs', FileSystem.openPath path fs = .ok f fs') ↔
      ∃ e, found fs.disk.medium path = .ok e ∧ OpenFile.opened fs.disk.medium e.sector = f := by
  obtain ⟨q, -, heq⟩ := h.openPath_eq path
  rw [heq]
  cases found fs.disk.medium path with
  | error cause => exact ⟨nofun, nofun⟩
  | ok e =>
    constructor
    · rintro ⟨fs', ⟨⟩⟩
      exact ⟨e, rfl, rfl⟩
    · rintro ⟨_, ⟨⟩, rfl⟩
      exact ⟨_, rfl⟩

section

variable (hw : WellNamed fs.disk.medium) {path : String}
include hw

theorem exists_openPath_iff {f : OpenFile} :
    (∃ fs', FileSystem.openPath path fs = .ok f fs') ↔ ∃ e,
      EntryAt fs.disk.medium (Path.names path) e ∧
        OpenFile.opened fs.disk.medium e.sector = f := by
  rw [h.openPath_eq_ok_iff]
  refine exists_congr fun e => and_congr_left fun _ => ?_
  rw [found_eq_ok_iff]
  exact ⟨And.right, fun he => ⟨hw.not_relative_of_entryAt he, he⟩⟩

theorem exists_list_iff : (∃ l, ((Request.list path).perform fs).1 = .listed l) ↔
    Path.names path = [] ∨
      ∃ e, EntryAt fs.disk.medium (Path.names path) e ∧ e.isDirectory = true := by
  rw [← exists_walk_iff]
  constructor
  · rintro ⟨l, hl⟩
    obtain ⟨-, p, hwalk, -⟩ := h.list_eq_iff.mp hl
    exact ⟨p, hwalk⟩
  · rintro ⟨p, hwalk⟩
    have hnames : (Path.names path).find? Path.isRelative = none := by
      rcases exists_walk_iff.mp ⟨p, hwalk⟩ with hnil | ⟨e, he, -⟩
      · rw [hnil]
        rfl
      · exact hw.not_relative_of_entryAt he
    exact ⟨_, h.list_eq_iff.mpr ⟨hnames, p, hwalk, rfl⟩⟩

end

end FileSystem.Healthy

/--
**The listing of the tree agrees with the paths.** In a file system that a run comes to, the whole
tree is listed on a tour. Put together from the listing, no path comes twice, the paths are those
under which files can be opened, and each directory lists what comes one level below it.
-/
theorem listing_agrees_with_paths {fs : FileSystem} (h : Reachable fs) :
    ∃ entries, fs.Toured entries := by
  have hw := h.wellNamed
  obtain ⟨out, htour, hlistTree⟩ := h.healthy.exists_tour
  have hjoined : joined [] (out.map unjoined) = out := htour.joined_eq rfl
  refine ⟨_, hlistTree, ?_, ?_, ?_, ?_, ?_, ?_, ?_, ?_⟩ <;> rw [hjoined]
  · exact htour
  · rw [List.map_map]
    rfl
  · exact htour.nodup_paths hw (hw.nodup_names .root) (reached_of_mem .root)
  · intro x hx
    exact Path.names_ofNames (hw.plain_of_entryAt ((htour.mem_iff_entryAt hw).mp hx))
  · intro path
    simp only [h.healthy.exists_openPath_iff hw, htour.mem_iff_entryAt hw]
    constructor
    · rintro ⟨f, e, he, -⟩
      exact ⟨e, he⟩
    · rintro ⟨e, he⟩
      exact ⟨_, e, he, rfl⟩
  · intro path e f fs' he hf
    obtain ⟨e', he', rfl⟩ := (h.healthy.exists_openPath_iff hw).mp ⟨fs', hf⟩
    rw [((htour.mem_iff_entryAt hw).mp he).unique he']
    rfl
  · intro path
    simp only [h.healthy.exists_list_iff hw, htour.mem_iff_entryAt hw]
  · intro path l hl
    obtain ⟨-, p, hwalk, rfl⟩ := h.healthy.list_eq_iff.mp hl
    exact (htour.children_of_walk hw hwalk).symm

/-- A file in a directory is listed one level below it. -/
theorem listing_agrees_with_paths_nested : ∃ fs fs' entries, Reachable fs ∧
    fs.run [.createDirectory "/d", .create "/d/f" 512] = fs' ∧ Reachable fs' ∧
    fs'.Toured entries ∧ ∃ e, (["d", "f"], e) ∈ joined [] entries := by
  obtain ⟨fs, hfs, -, -, hfile, hrun⟩ := exists_reachable_nested
  obtain ⟨entries, htoured⟩ := listing_agrees_with_paths hrun
  refine ⟨fs, _, entries, hfs, rfl, hrun, htoured, ?_⟩
  have hnames : Path.names "/d/f" = ["d", "f"] := by decide
  rw [← hnames, ← htoured.open_iff]
  have hmakes := (hfs.perform (.createDirectory "/d") trivial).healthy.makes_create
    "/d/f" 512
  cases hmakes with
  | refused _ hresponse =>
    rw [hfile] at hresponse
    cases hresponse
  | made _ _ _ hopen =>
    obtain ⟨f, fs', hf, -⟩ := hopen
    exact ⟨f, fs', hf⟩

end IndexedDisk
