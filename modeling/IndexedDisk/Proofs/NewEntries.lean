import IndexedDisk.Proofs.Addresses

/-!
# Asking for new entries

Files and directories are asked for in the same way (`NewEntry`), and either is made if nothing is
in its way. `Goes` says where a new entry goes. What is found afterwards is what was found before,
and the new entry.
-/

open IndexedDisk.Tree

namespace IndexedDisk

seal Tree.table

variable {m : Medium} {count : Nat}

/-- A file or a directory that is asked for. -/
inductive NewEntry where
  | file (path : String) (size : Nat)
  | directory (path : String)

namespace NewEntry

def path : NewEntry → String
  | file path _ => path
  | directory path => path

def size : NewEntry → Nat
  | file _ size => size
  | directory _ => directoryFileSize

def kind : NewEntry → EntryKind
  | file .. => .file
  | directory _ => .directory

def request : NewEntry → Request
  | file path size => .create path size
  | directory path => .createDirectory path

/-- The sectors for the header, the data and the index blocks. -/
def need (a : NewEntry) : Nat := 1 + sectorsFor a.size + indexBlocksFor (sectorsFor a.size)

/-- The path of a directory starts at the root. -/
def Rooted : NewEntry → Prop
  | file .. => True
  | directory path => path.toList.head? = some '/'

/-- Nothing is in the way. -/
structure Free (a : NewEntry) (m : Medium) (count : Nat) : Prop where
  rooted : a.Rooted
  clear : ∀ k cause, ¬ Obstacle m count a.path a.size k cause

/-- Where it goes, or why it is refused. -/
def plan (m : Medium) (count : Nat) : NewEntry → Except Refusal Creation
  | file path size => Creation.plan m count path size .file
  | directory path => Creation.planDirectory m count path

/-- It goes behind the names that lead to its directory. -/
structure Goes (a : NewEntry) (m : Medium) (count : Nat) (c : Creation) (parents : List String) :
    Prop where
  serves : c.Serves m count a.path a.size a.kind
  names_eq : Path.names a.path = parents ++ [c.name]
  walk_eq : walk (table m) rootSector [] parents = .ok c.parent
  name_eq : c.entry.name = c.name
  new : (table m (Word.wide c.parent)).find? c.name = none

variable {a b : NewEntry} {c : Creation} {parents : List String}

theorem exists_plan_iff : (∃ c, a.plan m count = .ok c) ↔ a.Free m count := by
  cases a with
  | file path size =>
    exact Creation.exists_plan_iff.trans ⟨fun h => ⟨trivial, h⟩, fun h => h.clear⟩
  | directory path =>
    simp only [plan, Creation.planDirectory]
    split
    · next h => exact Creation.exists_plan_iff.trans ⟨fun h' => ⟨h, h'⟩, fun h' => h'.clear⟩
    · next h =>
      refine ⟨?_, fun h' => absurd h'.rooted h⟩
      rintro ⟨c, ⟨⟩⟩

theorem admissible (a : NewEntry) (m : Medium) (t : OpenTable) : a.request.Admissible m t := by
  cases a <;> trivial

theorem exists_goes (hc : Consistent m count) (hplan : a.plan m count = .ok c) :
    ∃ parents, a.Goes m count c parents := by
  have hserves : c.Serves m count a.path a.size a.kind := by
    cases a with
    | file path size => exact Creation.serves_of_planFile hc hplan
    | directory path => exact Creation.serves_of_planDirectory hc hplan
  obtain ⟨hname, hnew⟩ := Creation.name_of_clear hserves (exists_plan_iff.mp ⟨c, hplan⟩).clear
  obtain ⟨parents, hsplit, hwalk⟩ := hserves.leads
  exact ⟨parents, hserves, (Path.splitLast_eq_ok.mp hsplit).2, hwalk, hname, hnew⟩

theorem perform_of_plan {fs : FileSystem} (h : fs.Healthy)
    (hplan : a.plan fs.disk.medium fs.disk.count = .ok c) : ∃ q, FaultPlan.Faultless q ∧
      a.request.perform fs = (.done,
        ⟨⟨c.after fs.disk.medium fs.disk.count, fs.disk.count, q⟩, fs.volume, fs.opened⟩) := by
  obtain ⟨⟨m, count, p⟩, v, t⟩ := fs
  obtain ⟨hs, hp, hv⟩ := h
  dsimp only at hs hp hv hplan
  subst hv
  cases a with
  | file path size => exact Request.perform_create hs.consistent hp hplan
  | directory path => exact Request.perform_createDirectory hs.consistent hp hplan

theorem perform_of_refused {fs : FileSystem} {cause : Refusal} (h : fs.Healthy)
    (hplan : a.plan fs.disk.medium fs.disk.count = .error cause) : ∃ q, FaultPlan.Faultless q ∧
      a.request.perform fs = (.failed (.refused cause),
        ⟨⟨fs.disk.medium, fs.disk.count, q⟩, fs.volume, fs.opened⟩) := by
  obtain ⟨⟨m, count, p⟩, v, t⟩ := fs
  obtain ⟨hs, hp, hv⟩ := h
  dsimp only at hs hp hv hplan
  subst hv
  cases a with
  | file path size => exact Request.perform_create_refused hs.consistent hp hplan
  | directory path => exact Request.perform_createDirectory_refused hs.consistent hp hplan

theorem exists_plan_of_done {fs : FileSystem} (h : fs.Healthy)
    (hdone : (a.request.perform fs).1 = .done) :
    ∃ c, a.plan fs.disk.medium fs.disk.count = .ok c := by
  cases hplan : a.plan fs.disk.medium fs.disk.count with
  | ok c => exact ⟨c, rfl⟩
  | error cause =>
    obtain ⟨q, -, heq⟩ := perform_of_refused h hplan
    rw [heq] at hdone
    cases hdone

/-! ## Once the entry has been made -/

namespace Goes

variable (hgoes : a.Goes m count c parents)
include hgoes

theorem bitmap_after (hc : Consistent m count) : bitmap (c.after m count) count
    = (bitmap m count).setAll ((bitmap m count).free.take a.need) true := by
  rw [Creation.bitmap_after hc hgoes.serves.valid, Creation.map,
    Creation.drawn_eq hgoes.serves.valid, hgoes.serves.size_eq]
  rfl

theorem free_after (hc : Consistent m count) :
    (bitmap (c.after m count) count).free = (bitmap m count).free.drop a.need := by
  rw [hgoes.bitmap_after hc, SectorMap.free_setAll]

theorem walk_after_iff (hc : Consistent m count) {names : List String} {q : Int32} :
    walk (table (c.after m count)) rootSector [] names = .ok q ↔
      walk (table m) rootSector [] names = .ok q ∨
        (c.kind = .directory ∧ names = parents ++ [c.name] ∧ q = c.entry.sector) :=
  Creation.walk_after_iff hc hgoes.serves.valid hgoes.name_eq hgoes.new hgoes.walk_eq

theorem find?_after_iff (hc : Consistent m count) {names : List String} {p : Int32} {name : String}
    {e : Entry} (hwalk : walk (table m) rootSector [] names = .ok p) :
    (table (c.after m count) (Word.wide p)).find? name = some e ↔
      (table m (Word.wide p)).find? name = some e ∨
        (names ++ [name] = Path.names a.path ∧ e = c.entry) := by
  rw [hgoes.names_eq]
  exact Creation.find?_after_iff hc hgoes.serves.valid hgoes.name_eq hgoes.new hgoes.walk_eq hwalk

theorem leadsTo_after (hc : Consistent m count) {path : String} {p : Int32} {name : String}
    (h : LeadsTo m path p name) : LeadsTo (c.after m count) path p name := by
  obtain ⟨before, hsplit, hwalk⟩ := h
  exact ⟨before, hsplit, (hgoes.walk_after_iff hc).mpr (.inl hwalk)⟩

end Goes

end NewEntry

end IndexedDisk
