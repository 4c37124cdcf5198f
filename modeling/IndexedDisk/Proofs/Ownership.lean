import IndexedDisk.Proofs.Making

/-!
# Who owns a sector

What can be found on a disk by reading it: the directories that can be reached from the root, the
files that they name, and the sectors that each of these uses (`Disk.Uses`). On every disk that a
run comes to, the stored sector map marks these sectors and no others, and each of them has one
owner and one use (`marked_iff_used_once`).
-/

open IndexedDisk.Tree IndexedDisk.OpenFile

namespace IndexedDisk

namespace Disk

/-- What a request finds on a disk when no transfer fails. -/
def look {α : Type} (disk : Disk) (act : DiskM α) : Option α :=
  match act ⟨disk.medium, disk.count, {}⟩ with
  | .ok a _ => some a
  | .error _ _ => none

variable (disk : Disk)

/-- The header at `p` is that of a directory that can be reached from the root. -/
inductive Reaches : Int32 → Prop
  | root : Reaches rootSector
  | child {p f d e} (hp : Reaches p) (hd : disk.look (Directory.openAt p) = some (f, d))
      (he : e ∈ d.list) (hdir : e.isDirectory = true) : Reaches e.sector

/-- The header of the owner's file lies at `p`. -/
inductive Keeps : Owner → Int32 → Prop
  | map : Keeps .map mapSector
  | root : Keeps .root rootSector
  | entry {p f d i e} (hp : disk.Reaches p) (hd : disk.look (Directory.openAt p) = some (f, d))
      (hi : d.slots[i]? = some e) (hused : e.inUse = true) : Keeps (.entry (Word.wide p) i) e.sector

/-- The owner uses the sector in this role. -/
inductive Uses (o : Owner) : Role → Nat → Prop
  | header {p} (hp : disk.Keeps o p) : Uses o .header (Word.wide p)
  | data {p h l k s} (hp : disk.Keeps o p) (hh : disk.look (Header.fetch p) = some h)
      (hl : disk.look h.dataSectors = some l) (hk : l[k]? = some s) : Uses o (.data k) (Word.wide s)
  | index {p h l k s} (hp : disk.Keeps o p) (hh : disk.look (Header.fetch p) = some h)
      (hl : disk.look h.indexSectors = some l) (hk : l[k]? = some s) :
      Uses o (.index k) (Word.wide s)

end Disk

variable {m : Medium} {count : Nat} {p : FaultPlan}

theorem Answers.look {α : Type} {act : DiskM α} {a : α} (h : Answers m count act (.ok a))
    (hm : sectorSize * count ≤ m.size) : Disk.look ⟨m, count, p⟩ act = some a := by
  obtain ⟨q, -, hact⟩ := h.eval FaultPlan.faultless_default hm
  rw [Disk.look, hact]
  rfl

namespace Tree.Consistent

variable (hc : Consistent m count)
include hc

theorem look_fetchMap :
    Disk.look ⟨m, count, p⟩ (Volume.on m).fetchMap = some (bitmap m count) :=
  hc.answers_fetchMap.look hc.covered

theorem look_openAt {q : Int32} (hq : Reached m (Word.wide q)) :
    Disk.look ⟨m, count, p⟩ (Directory.openAt q) = some (opened m q, table m (Word.wide q)) :=
  (hc.answers_openAt hq).look hc.covered

theorem look_fetch {o : Owner} {q : Int32} (hq : Names m o (Word.wide q)) :
    Disk.look ⟨m, count, p⟩ (Header.fetch q) = some (Header.stored m (Word.wide q)) := by
  have hfetch : Answers m count (Header.fetch q) (.ok (Header.stored m (Word.wide q))) :=
    (Answers.readSector (hc.names_lt hq)).map
  exact hfetch.look hc.covered

theorem look_dataSectors {o : Owner} {s : Nat} (hs : Names m o s) :
    Disk.look ⟨m, count, p⟩ (Header.stored m s).dataSectors
      = some ((Header.stored m s).dataPointers m) := by
  have hdata : Answers m count (Header.stored m s).dataSectors _ :=
    ⟨_, fun i hi => hc.sectors_lt hs (List.mem_append_right _ hi),
      (hc.intact _ _ hs).follows_dataSectors⟩
  exact hdata.look hc.covered

theorem look_indexSectors {o : Owner} {s : Nat} (hs : Names m o s) :
    Disk.look ⟨m, count, p⟩ (Header.stored m s).indexSectors
      = some ((Header.stored m s).indexPointers m) := by
  have hindex : Answers m count (Header.stored m s).indexSectors
      (.ok ((Header.stored m s).indexPointers m)) := by
    refine ⟨_, fun i hi => hc.sectors_lt hs (List.mem_append_right _ ?_),
      (hc.intact _ _ hs).follows_indexSectors⟩
    obtain ⟨q, hq, rfl⟩ := List.mem_map.mp hi
    exact List.mem_map_of_mem (List.mem_append_left _ (List.mem_append_right _ hq))
  exact hindex.look hc.covered

theorem reached_of_reaches {q : Int32} (hq : Disk.Reaches ⟨m, count, p⟩ q) :
    Reached m (Word.wide q) := by
  induction hq with
  | root => exact .root
  | child _ hd he hdir ih =>
    rw [hc.look_openAt ih] at hd
    obtain ⟨rfl, rfl⟩ := Prod.mk.inj (Option.some.inj hd)
    obtain ⟨he, hused⟩ := List.mem_filter.mp he
    obtain ⟨i, hi⟩ := Array.mem_iff_getElem?.mp (Array.mem_toList_iff.mp he)
    exact .child ih (slot?_eq_some.mpr ⟨hi, hused⟩) hdir

theorem exists_reaches {s : Nat} (hs : Reached m s) :
    ∃ q, Word.wide q = s ∧ Disk.Reaches ⟨m, count, p⟩ q := by
  induction hs with
  | root => exact ⟨_, rfl, .root⟩
  | @child d i e hd hi hdir ih =>
    obtain ⟨q, rfl, hq⟩ := ih
    obtain ⟨hi, hused⟩ := slot?_eq_some.mp hi
    refine ⟨e.sector, rfl, .child hq (hc.look_openAt hd) ?_ hdir⟩
    exact List.mem_filter.mpr ⟨Array.mem_toList_iff.mpr (Array.mem_of_getElem? hi), hused⟩

theorem names_of_keeps {o : Owner} {q : Int32} (h : Disk.Keeps ⟨m, count, p⟩ o q) :
    Names m o (Word.wide q) := by
  cases h with
  | map => exact .map
  | root => exact .root
  | entry hp hd hi hused =>
    have hp := hc.reached_of_reaches hp
    rw [hc.look_openAt hp] at hd
    obtain ⟨rfl, rfl⟩ := Prod.mk.inj (Option.some.inj hd)
    exact .entry hp (slot?_eq_some.mpr ⟨hi, hused⟩)

theorem exists_keeps {o : Owner} {s : Nat} (h : Names m o s) :
    ∃ q, Word.wide q = s ∧ Disk.Keeps ⟨m, count, p⟩ o q := by
  cases h with
  | map => exact ⟨_, rfl, .map⟩
  | root => exact ⟨_, rfl, .root⟩
  | entry hd hi =>
    obtain ⟨q, rfl, hq⟩ := hc.exists_reaches hd
    obtain ⟨hi, hused⟩ := slot?_eq_some.mp hi
    exact ⟨_, rfl, .entry hq (hc.look_openAt hd) hi hused⟩

theorem uses_iff {o : Owner} {r : Role} {i : Nat} :
    Disk.Uses ⟨m, count, p⟩ o r i ↔ Owns m o r i := by
  constructor
  · intro h
    cases h with
    | header hq => exact owns_header (hc.names_of_keeps hq)
    | @data q h l k s hq hh hl hk =>
      have hq := hc.names_of_keeps hq
      rw [hc.look_fetch hq] at hh
      obtain rfl := Option.some.inj hh
      rw [hc.look_dataSectors hq] at hl
      obtain rfl := Option.some.inj hl
      refine ⟨_, hq, ?_⟩
      rw [Role.sector?, Header.data, List.getElem?_map, hk]
      rfl
    | @index q h l k s hq hh hl hk =>
      have hq := hc.names_of_keeps hq
      rw [hc.look_fetch hq] at hh
      obtain rfl := Option.some.inj hh
      rw [hc.look_indexSectors hq] at hl
      obtain rfl := Option.some.inj hl
      refine ⟨_, hq, ?_⟩
      rw [Role.sector?, Header.index, List.getElem?_map, hk]
      rfl
  · rintro ⟨s, hs, hr⟩
    obtain ⟨q, rfl, hq⟩ := hc.exists_keeps (p := p) hs
    cases r with
    | header =>
      cases hr
      exact .header hq
    | data k =>
      rw [Role.sector?, Header.data, List.getElem?_map, Option.map_eq_some_iff] at hr
      obtain ⟨a, ha, rfl⟩ := hr
      exact .data hq (hc.look_fetch hs) (hc.look_dataSectors hs) ha
    | index k =>
      rw [Role.sector?, Header.index, List.getElem?_map, Option.map_eq_some_iff] at hr
      obtain ⟨a, ha, rfl⟩ := hr
      exact .index hq (hc.look_fetch hs) (hc.look_indexSectors hs) ha

end Tree.Consistent

/--
**Every sector in use has one owner.** On the disk of any file system that a run comes to, the
stored sector map marks a sector if and only if the sector map, the root directory or an entry
below it uses the sector, and then exactly one of them does, in exactly one role.
-/
theorem marked_iff_used_once {fs : FileSystem} (h : Reachable fs) :
    ∃ map, fs.disk.look fs.volume.fetchMap = some map ∧
      (∀ i, map.bit i = true ↔ ∃ o r, fs.disk.Uses o r i) ∧
      ∀ i o r o' r', fs.disk.Uses o r i → fs.disk.Uses o' r' i → o = o' ∧ r = r' := by
  obtain ⟨⟨hc, -, -⟩, -, hv⟩ := h.healthy
  refine ⟨bitmap fs.disk.medium fs.disk.count, ?_, fun i => ?_, fun i o r o' r' ho ho' => ?_⟩
  · rw [hv]
    exact hc.look_fetchMap
  · rw [hc.bit_iff]
    constructor
    · rintro ⟨o, r, ho⟩
      exact ⟨o, r, hc.uses_iff.mpr ho⟩
    · rintro ⟨o, r, ho⟩
      exact ⟨o, r, hc.uses_iff.mp ho⟩
  · exact hc.unique _ _ _ _ _ (hc.uses_iff.mp ho) (hc.uses_iff.mp ho')

/-- A run makes a directory and a file in it. -/
theorem marked_iff_used_once_nested : ∃ fs fs', Reachable fs ∧ fs.disk.count = 16 ∧
    ((Request.createDirectory "/d").perform fs).1 = .done ∧
    ((Request.create "/d/f" 512).perform ((Request.createDirectory "/d").perform fs).2).1 = .done ∧
    fs.run [.createDirectory "/d", .create "/d/f" 512] = fs' ∧ Reachable fs' ∧
    ∃ map, fs'.disk.look fs'.volume.fetchMap = some map ∧
      (∀ i, map.bit i = true ↔ ∃ o r, fs'.disk.Uses o r i) ∧
      ∀ i o r o' r', fs'.disk.Uses o r i → fs'.disk.Uses o' r' i → o = o' ∧ r = r' := by
  obtain ⟨fs, hfs, hcount, hdirectory, hfile, hrun⟩ := exists_reachable_nested
  exact ⟨fs, _, hfs, hcount, hdirectory, hfile, rfl, hrun, marked_iff_used_once hrun⟩

end IndexedDisk
