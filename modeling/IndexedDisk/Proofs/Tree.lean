import IndexedDisk.Proofs.Free
import IndexedDisk.Proofs.Stored

/-!
# The tree on a medium

What is found from the two headers in sectors 0 and 1: the sector map, the directories that can be
reached from the root, and the files that their entries name. Every sector of these has an owner,
which is the map, the root or a slot of a directory, and a role in the file of that owner.

`Consistent` says that the tree is well formed: its headers are intact, each of its sectors has one
owner and one role, and the sector map marks these sectors and no others.

* `reached_congr`, `names_congr`: the tree depends on the tables of its directories.
* `reached_insert`, `names_insert`, `reached_erase`, `names_erase`: what becomes of it when one slot
  is taken or given up.
-/

namespace IndexedDisk

/-- Whose file a sector belongs to. -/
inductive Owner where
  | map
  | root
  /-- The entry in a slot of the directory whose header lies in a sector. -/
  | entry (directory slot : Nat)
deriving DecidableEq, Repr

/-- What a file uses a sector for. -/
inductive Role where
  | header
  | data (k : Nat)
  | index (k : Nat)
deriving DecidableEq, Repr

/-- The sector that the file whose header lies in sector `s` uses for a role. -/
def Role.sector? (m : Medium) (s : Nat) : Role → Option Nat
  | header => some s
  | data k => ((Header.stored m s).data m)[k]?
  | index k => ((Header.stored m s).index m)[k]?

namespace Role

variable {m : Medium} {s i : Nat}

theorem exists_sector?_iff : (∃ r : Role, r.sector? m s = some i)
    ↔ i ∈ s :: ((Header.stored m s).data m ++ (Header.stored m s).index m) := by
  rw [List.mem_cons, List.mem_append]
  constructor
  · rintro ⟨r, hr⟩
    cases r with
    | header => exact Or.inl (Option.some.inj hr).symm
    | data k => exact Or.inr (Or.inl (List.mem_of_getElem? hr))
    | index k => exact Or.inr (Or.inr (List.mem_of_getElem? hr))
  · rintro (rfl | hi | hi)
    · exact ⟨header, rfl⟩
    · obtain ⟨k, hk⟩ := List.mem_iff_getElem?.mp hi
      exact ⟨data k, hk⟩
    · obtain ⟨k, hk⟩ := List.mem_iff_getElem?.mp hi
      exact ⟨index k, hk⟩

theorem sector?_injective
    (h : (s :: ((Header.stored m s).data m ++ (Header.stored m s).index m)).Nodup) {r r' : Role}
    (hr : r.sector? m s = some i) (hr' : r'.sector? m s = some i) : r = r' := by
  obtain ⟨hheader, hnodup⟩ := List.nodup_cons.mp h
  obtain ⟨hdata, hindex, hdisjoint⟩ := List.nodup_append.mp hnodup
  have hinj {l : List Nat} (hl : l.Nodup) {k k' : Nat} (hk : l[k]? = some i)
      (hk' : l[k']? = some i) : k = k' :=
    (List.getElem?_inj (List.getElem?_eq_some_iff.mp hk).1 hl).mp (hk.trans hk'.symm)
  have hne {r : Role} (hr : r.sector? m s = some i) (hs : r ≠ header) : i ≠ s := by
    rintro rfl
    cases r with
    | header => exact hs rfl
    | data k => exact hheader (List.mem_append_left _ (List.mem_of_getElem? hr))
    | index k => exact hheader (List.mem_append_right _ (List.mem_of_getElem? hr))
  cases r with
  | header =>
    cases r' with
    | header => rfl
    | data k => exact absurd (Option.some.inj hr).symm (hne hr' nofun)
    | index k => exact absurd (Option.some.inj hr).symm (hne hr' nofun)
  | data k =>
    cases r' with
    | header => exact absurd (Option.some.inj hr').symm (hne hr nofun)
    | data k' => exact congrArg data (hinj hdata hr hr')
    | index k' =>
      exact absurd rfl (hdisjoint i (List.mem_of_getElem? hr) i (List.mem_of_getElem? hr'))
  | index k =>
    cases r' with
    | header => exact absurd (Option.some.inj hr').symm (hne hr nofun)
    | data k' =>
      exact absurd rfl (hdisjoint i (List.mem_of_getElem? hr') i (List.mem_of_getElem? hr))
    | index k' => exact congrArg index (hinj hindex hr hr')

end Role

namespace Tree

section

variable (m : Medium)

/-- The directory whose header lies in sector `d`. -/
def table (d : Nat) : Directory := Directory.held m (Header.stored m d) directorySlots

/-- The entry in use in slot `i` of that directory. -/
def slot? (d i : Nat) : Option Entry := (table m d).slots[i]?.filter (·.inUse)

/-- The sector map. -/
def bitmap (count : Nat) : SectorMap :=
  SectorMap.held m (Header.stored m (Word.wide mapSector)) count

/-- A directory that can be reached from the root has its header in this sector. -/
inductive Reached : Nat → Prop
  | root : Reached (Word.wide rootSector)
  | child {d i : Nat} {e : Entry} (hd : Reached d) (hi : slot? m d i = some e)
      (he : e.isDirectory = true) : Reached (Word.wide e.sector)

/-- The owner's header lies in this sector. -/
inductive Names : Owner → Nat → Prop
  | map : Names .map (Word.wide mapSector)
  | root : Names .root (Word.wide rootSector)
  | entry {d i : Nat} {e : Entry} (hd : Reached m d) (hi : slot? m d i = some e) :
      Names (.entry d i) (Word.wide e.sector)

/-- The owner uses this sector for a role. -/
def Owns (o : Owner) (r : Role) (i : Nat) : Prop := ∃ s, Names m o s ∧ r.sector? m s = some i

/-- The tree is well formed, on a disk of `count` sectors. -/
structure Consistent (count : Nat) : Prop where
  covered : sectorSize * count ≤ m.size
  intact : ∀ o s, Names m o s → (Header.stored m s).Intact m
  map_length : (Header.stored m (Word.wide mapSector)).length = SectorMap.imageSize count
  directory_length : ∀ d, Reached m d → (Header.stored m d).length = directoryFileSize
  unique : ∀ o r o' r' i, Owns m o r i → Owns m o' r' i → o = o' ∧ r = r'
  tidy : (bitmap m count).Tidy
  bit_iff : ∀ i, (bitmap m count).bit i = true ↔ ∃ o r, Owns m o r i

end

variable {m m' : Medium} {count : Nat}

@[simp] theorem size_bitmap (m : Medium) (count : Nat) : (bitmap m count).size = count := rfl

theorem size_table (m : Medium) (d : Nat) : (table m d).slots.size = directorySlots :=
  Directory.size_ofImage ..

theorem slot?_eq_some {d i : Nat} {e : Entry} :
    slot? m d i = some e ↔ (table m d).slots[i]? = some e ∧ e.inUse = true := by
  rw [slot?, Option.filter_eq_some_iff]

theorem names_functional {o : Owner} {s s' : Nat} (h : Names m o s) (h' : Names m o s') :
    s = s' := by
  cases h with
  | map => cases h'; rfl
  | root => cases h'; rfl
  | entry _ hi =>
    cases h' with
    | entry _ hi' =>
      rw [hi] at hi'
      rw [Option.some.inj hi']

theorem names_entry_iff {d i s : Nat} : Names m (.entry d i) s ↔
    ∃ e, Reached m d ∧ slot? m d i = some e ∧ Word.wide e.sector = s := by
  constructor
  · rintro (_ | _ | ⟨hd, hi⟩)
    exact ⟨_, hd, hi, rfl⟩
  · rintro ⟨e, hd, hi, rfl⟩
    exact .entry hd hi

theorem exists_names {d : Nat} (h : Reached m d) : ∃ o, o ≠ .map ∧ Names m o d := by
  cases h with
  | root => exact ⟨.root, nofun, .root⟩
  | child hd hi _ => exact ⟨.entry _ _, nofun, .entry hd hi⟩

theorem owns_header {o : Owner} {s : Nat} (h : Names m o s) : Owns m o .header s := ⟨s, h, rfl⟩

theorem owns_data {o : Owner} {s i : Nat} (h : Names m o s) (hi : i ∈ (Header.stored m s).data m) :
    ∃ k, Owns m o (.data k) i := by
  obtain ⟨k, hk⟩ := List.mem_iff_getElem?.mp hi
  exact ⟨k, s, h, hk⟩

theorem owns_index {o : Owner} {s i : Nat} (h : Names m o s) (hi : i ∈ (Header.stored m s).index m) :
    ∃ k, Owns m o (.index k) i := by
  obtain ⟨k, hk⟩ := List.mem_iff_getElem?.mp hi
  exact ⟨k, s, h, hk⟩

theorem exists_owns_iff {o : Owner} {s i : Nat} (hs : Names m o s) : (∃ r, Owns m o r i) ↔
    i ∈ s :: ((Header.stored m s).data m ++ (Header.stored m s).index m) := by
  rw [← Role.exists_sector?_iff]
  exact exists_congr fun r =>
    ⟨fun ⟨_, hs', hr⟩ => names_functional hs hs' ▸ hr, fun hr => ⟨s, hs, hr⟩⟩

/-! ## Consistent trees -/

namespace Consistent

variable (hc : Consistent m count)
include hc

theorem count_le : count ≤ 8 * maxFileSize := by
  have hle := (hc.intact _ _ .map).length_le
  rw [hc.map_length, SectorMap.imageSize] at hle
  omega

theorem owns_lt {o : Owner} {r : Role} {i : Nat} (h : Owns m o r i) : i < count := by
  have hbit := (hc.bit_iff i).mpr ⟨o, r, h⟩
  apply Nat.lt_of_not_le
  intro hle
  rw [hc.tidy i hle] at hbit
  cases hbit

theorem names_lt {o : Owner} {s : Nat} (h : Names m o s) : s < count := hc.owns_lt (owns_header h)

theorem sectors_lt {o : Owner} {s i : Nat} (h : Names m o s)
    (hi : i ∈ (Header.stored m s).data m ++ (Header.stored m s).index m) : i < count := by
  rcases List.mem_append.mp hi with hi | hi
  · obtain ⟨k, hk⟩ := owns_data h hi
    exact hc.owns_lt hk
  · obtain ⟨k, hk⟩ := owns_index h hi
    exact hc.owns_lt hk

theorem names_injective {o o' : Owner} {s : Nat} (h : Names m o s) (h' : Names m o' s) : o = o' :=
  (hc.unique _ _ _ _ _ (owns_header h) (owns_header h')).1

theorem not_owns_of_free {i : Nat} (h : i ∈ (bitmap m count).free) (o : Owner) (r : Role) :
    ¬ Owns m o r i := by
  intro howns
  have hbit := (hc.bit_iff i).mpr ⟨o, r, howns⟩
  rw [(SectorMap.mem_free.mp h).2] at hbit
  cases hbit

/-- A header, its data sectors and its index blocks are different sectors. -/
theorem separate {o : Owner} {s : Nat} (h : Names m o s) : (Header.stored m s).Separate m := by
  have hpos (l : List Nat) (f : Nat → Role) (hf : ∀ k k', f k = f k' → k = k')
      (hl : ∀ k, (f k).sector? m s = l[k]?) : l.Nodup := by
    rw [List.Nodup, List.pairwise_iff_getElem]
    intro k k' hk hk' hlt heq
    have hsome : (f k').sector? m s = some l[k'] := by rw [hl, List.getElem?_eq_getElem hk']
    have hsome' : (f k).sector? m s = some l[k'] := by rw [hl, List.getElem?_eq_getElem hk, heq]
    have := hf _ _ (hc.unique _ _ _ _ _ ⟨s, h, hsome'⟩ ⟨s, h, hsome⟩).2
    omega
  refine List.nodup_append.mpr ⟨hpos _ Role.data (fun k k' hk => by cases hk; rfl) fun _ => rfl,
    hpos _ Role.index (fun k k' hk => by cases hk; rfl) fun _ => rfl, ?_⟩
  rintro i hi _ hi' rfl
  obtain ⟨k, hk⟩ := owns_data h hi
  obtain ⟨k', hk'⟩ := owns_index h hi'
  cases (hc.unique _ _ _ _ _ hk hk').2

theorem header_not_mem {o : Owner} {s : Nat} (h : Names m o s) :
    s ∉ (Header.stored m s).data m ++ (Header.stored m s).index m := by
  intro hs
  rcases List.mem_append.mp hs with hs | hs
  · obtain ⟨k, hk⟩ := owns_data h hs
    cases (hc.unique _ _ _ _ _ (owns_header h) hk).2
  · obtain ⟨k, hk⟩ := owns_index h hs
    cases (hc.unique _ _ _ _ _ (owns_header h) hk).2

end Consistent

/-! ## What the tree depends on -/

theorem slot?_congr {d : Nat} (h : table m' d = table m d) (i : Nat) :
    slot? m' d i = slot? m d i := by
  rw [slot?, slot?, h]

section

variable (h : ∀ d, Reached m d → ∀ i, slot? m' d i = slot? m d i)
include h

theorem reached_congr {d : Nat} : Reached m' d ↔ Reached m d := by
  constructor
  · intro hd
    induction hd with
    | root => exact .root
    | child _ hi he ih => exact .child ih ((h _ ih _).symm.trans hi) he
  · intro hd
    induction hd with
    | root => exact .root
    | child hd hi he ih => exact .child ih ((h _ hd _).trans hi) he

theorem names_congr {o : Owner} {s : Nat} : Names m' o s ↔ Names m o s := by
  constructor
  · intro hs
    cases hs with
    | map => exact .map
    | root => exact .root
    | entry hd hi =>
      have hd := (reached_congr h).mp hd
      exact .entry hd ((h _ hd _).symm.trans hi)
  · intro hs
    cases hs with
    | map => exact .map
    | root => exact .root
    | entry hd hi => exact .entry ((reached_congr h).mpr hd) ((h _ hd _).trans hi)

end

/-! ## Taking a slot -/

section

variable {d i : Nat} {e : Entry} (hd : Reached m d) (hfree : slot? m d i = none)
  (hslot : ∀ d', Reached m d' → ∀ j,
    slot? m' d' j = if d' = d ∧ j = i then some e else slot? m d' j)
  (hblank : e.isDirectory = true → ∀ j, slot? m' (Word.wide e.sector) j = none)
include hd hfree hslot hblank

theorem reached_insert {s : Nat} :
    Reached m' s ↔ Reached m s ∨ (e.isDirectory = true ∧ s = Word.wide e.sector) := by
  constructor
  · intro hs
    induction hs with
    | root => exact Or.inl .root
    | child _ hi he ih =>
      rcases ih with ih | ⟨hdir, rfl⟩
      · rw [hslot _ ih] at hi
        split at hi
        · cases hi
          exact Or.inr ⟨he, rfl⟩
        · exact Or.inl (.child ih hi he)
      · rw [hblank hdir] at hi
        cases hi
  · have hold : ∀ s, Reached m s → Reached m' s := by
      intro s hs
      induction hs with
      | root => exact .root
      | child hd' hi he ih =>
        refine .child ih ((hslot _ hd' _).trans ((if_neg ?_).trans hi)) he
        rintro ⟨rfl, rfl⟩
        rw [hfree] at hi
        cases hi
    rintro (hs | ⟨hdir, rfl⟩)
    · exact hold s hs
    · exact .child (hold d hd) (by rw [hslot d hd, if_pos ⟨rfl, rfl⟩]) hdir

theorem names_insert {o : Owner} {s : Nat} :
    Names m' o s ↔ Names m o s ∨ (o = .entry d i ∧ s = Word.wide e.sector) := by
  constructor
  · intro hs
    cases hs with
    | map => exact Or.inl .map
    | root => exact Or.inl .root
    | entry hd' hi =>
      rcases (reached_insert hd hfree hslot hblank).mp hd' with hd' | ⟨hdir, rfl⟩
      · rw [hslot _ hd'] at hi
        split at hi
        · rename_i heq
          obtain ⟨rfl, rfl⟩ := heq
          cases hi
          exact Or.inr ⟨rfl, rfl⟩
        · exact Or.inl (.entry hd' hi)
      · rw [hblank hdir] at hi
        cases hi
  · rintro (hs | ⟨rfl, rfl⟩)
    · cases hs with
      | map => exact .map
      | root => exact .root
      | entry hd' hi =>
        refine .entry ((reached_insert hd hfree hslot hblank).mpr (Or.inl hd'))
          ((hslot _ hd' _).trans ((if_neg ?_).trans hi))
        rintro ⟨rfl, rfl⟩
        rw [hfree] at hi
        cases hi
    · exact .entry ((reached_insert hd hfree hslot hblank).mpr (Or.inl hd))
        (by rw [hslot d hd, if_pos ⟨rfl, rfl⟩])

end

/-! ## Giving up a slot -/

section

variable {d i : Nat} {e : Entry} (hd : Reached m d) (hi : slot? m d i = some e)
  (hslot : ∀ d', Reached m d' → ∀ j,
    slot? m' d' j = if d' = d ∧ j = i then none else slot? m d' j)
  (hblank : e.isDirectory = true → ∀ j, slot? m (Word.wide e.sector) j = none)
  (hunique : ∀ o s, Names m o s → s = Word.wide e.sector → o = .entry d i)
include hd hi hslot hblank hunique

omit hd hslot hblank in
/-- A sector that holds the header of the entry is that of a directory only if the entry says so. -/
theorem isDirectory_of_reached (h : Reached m (Word.wide e.sector)) : e.isDirectory = true := by
  generalize hs : Word.wide e.sector = s at h
  cases h with
  | root => cases hunique _ _ .root hs.symm
  | child hd' hi' he =>
    cases hunique _ _ (.entry hd' hi') hs.symm
    rw [hi] at hi'
    cases hi'
    exact he

theorem reached_erase {s : Nat} : Reached m' s ↔ Reached m s ∧ s ≠ Word.wide e.sector := by
  constructor
  · intro hs
    induction hs with
    | root => exact ⟨.root, fun heq => by cases hunique _ _ .root heq⟩
    | child _ hj he ih =>
      obtain ⟨hd', -⟩ := ih
      rw [hslot _ hd'] at hj
      split at hj
      · cases hj
      · rename_i hne
        refine ⟨.child hd' hj he, fun heq => hne ?_⟩
        cases hunique _ _ (.entry hd' hj) heq
        exact ⟨rfl, rfl⟩
  · rintro ⟨hs, hne⟩
    induction hs with
    | root => exact .root
    | @child d' _ _ hd' hj he ih =>
      have hd'' : d' ≠ Word.wide e.sector := by
        rintro rfl
        rw [hblank (isDirectory_of_reached hi hunique hd')] at hj
        cases hj
      refine .child (ih hd'') ((hslot _ hd' _).trans ((if_neg ?_).trans hj)) he
      rintro ⟨rfl, rfl⟩
      rw [hi] at hj
      cases hj
      exact hne rfl

theorem names_erase {o : Owner} {s : Nat} : Names m' o s ↔ Names m o s ∧ o ≠ .entry d i := by
  constructor
  · intro hs
    cases hs with
    | map => exact ⟨.map, nofun⟩
    | root => exact ⟨.root, nofun⟩
    | entry hd' hj =>
      obtain ⟨hd', -⟩ := (reached_erase hd hi hslot hblank hunique).mp hd'
      rw [hslot _ hd'] at hj
      split at hj
      · cases hj
      · rename_i hne
        refine ⟨.entry hd' hj, fun heq => hne ?_⟩
        cases heq
        exact ⟨rfl, rfl⟩
  · rintro ⟨hs, hne⟩
    cases hs with
    | map => exact .map
    | root => exact .root
    | @entry d' _ _ hd' hj =>
      have hd'' : d' ≠ Word.wide e.sector := by
        rintro rfl
        rw [hblank (isDirectory_of_reached hi hunique hd')] at hj
        cases hj
      refine .entry ((reached_erase hd hi hslot hblank hunique).mpr ⟨hd', hd''⟩)
        ((hslot _ hd' _).trans ((if_neg ?_).trans hj))
      rintro ⟨rfl, rfl⟩
      exact hne rfl

end

end Tree

end IndexedDisk
