import IndexedDisk.Proofs.Frame
import IndexedDisk.Proofs.Releasing

/-!
# Finding things in a tree

Requests that look for something only read. On a consistent tree what they find is the table of a
directory or the sector map as the medium holds it.

* `Answers`: a request that only reads sectors of the disk, and its answer.
* `walk`, `answers_resolve`: the directory that a list of names leads to.
* `find?_eq_some`, `add_eq_ok`, `remove_eq_ok`: what a table says of a name.
-/

namespace IndexedDisk

/-- The request only reads sectors of the disk, and then answers. -/
def Answers {α : Type} (m : Medium) (count : Nat) (act : DiskM α) (result : Except Failure α) :
    Prop :=
  ∃ sectors, (∀ s ∈ sectors, s < count) ∧ Follows m count act (Script.reads sectors) result

namespace Answers

variable {α β : Type} {m : Medium} {count : Nat} {act : DiskM α} {result : Except Failure α}

theorem of_nil (h : Follows m count act [] result) : Answers m count act result :=
  ⟨[], by simp, h⟩

theorem pure (a : α) : Answers m count (Pure.pure a) (.ok a) := of_nil (Follows.pure a)

theorem refuse (cause : Refusal) :
    Answers m count (IndexedDisk.refuse cause : DiskM α) (.error (.refused cause)) :=
  of_nil (Follows.refuse cause)

theorem breach (cause : Breach) :
    Answers m count (IndexedDisk.breach cause : DiskM α) (.error (.broken cause)) :=
  of_nil (Follows.breach cause)

theorem readSector {s : Nat} (hs : s < count) :
    Answers m count (Disk.readSector s) (.ok (m.get s)) :=
  ⟨[s], by simpa using hs, Follows.readSector s⟩

theorem bind {f : α → DiskM β} {a : α} {result' : Except Failure β}
    (h : Answers m count act (.ok a)) (h' : Answers m count (f a) result') :
    Answers m count (act >>= f) result' := by
  obtain ⟨l, hl, h⟩ := h
  obtain ⟨l', hl', h'⟩ := h'
  refine ⟨l ++ l', fun s hs => (List.mem_append.mp hs).elim (hl s) (hl' s), ?_⟩
  rw [Script.reads_append]
  exact h.bind_reads h'

theorem bind_error {f : α → DiskM β} {cause : Failure} (h : Answers m count act (.error cause)) :
    Answers m count (act >>= f) (.error cause) := by
  obtain ⟨l, hl, h⟩ := h
  exact ⟨l, hl, h.bind_error⟩

theorem seq {f : α → DiskM β} {g : α → Except Failure β} (h : Answers m count act result)
    (h' : ∀ a, result = .ok a → Answers m count (f a) (g a)) :
    Answers m count (act >>= f) (result >>= g) := by
  cases result with
  | error cause => exact h.bind_error
  | ok a => exact h.bind (h' a rfl)

theorem map {f : α → β} {a : α} (h : Answers m count act (.ok a)) :
    Answers m count (do return f (← act)) (.ok (f a)) :=
  bind (f := fun a => Pure.pure (f a)) h (pure _)

theorem ok_bind {x : Except Refusal α} {f : α → DiskM β} {a : α} {result' : Except Failure β}
    (h : x = .ok a) (h' : Answers m count (f a) result') :
    Answers m count (liftM x >>= f) result' :=
  bind (of_nil (Follows.of_ok_refusal h)) h'

theorem error_bind {x : Except Refusal α} {f : α → DiskM β} {cause : Refusal}
    (h : x = .error cause) : Answers m count (liftM x >>= f) (.error (.refused cause)) :=
  bind_error (of_nil (Follows.of_error_refusal h))

theorem eval (h : Answers m count act result) {p : FaultPlan} (hp : p.Faultless)
    (hm : sectorSize * count ≤ m.size) :
    ∃ q, q.Faultless ∧ act ⟨m, count, p⟩ = answer result ⟨m, count, q⟩ := by
  obtain ⟨l, hl, h⟩ := h
  refine ⟨_, Script.plan_faultless hp (Script.reads l), ?_⟩
  rw [h.eval hp (Script.within_reads.mpr hl) hm, Script.medium_reads]

end Answers

/-- The request reads sectors of the disk, and then makes the transfers of a script. -/
def Commits {α : Type} (m : Medium) (count : Nat) (act : DiskM α) (script : Script)
    (result : Except Failure α) : Prop :=
  ∃ sectors, (∀ s ∈ sectors, s < count) ∧
    Follows m count act (Script.reads sectors ++ script) result

namespace Commits

variable {α β : Type} {m : Medium} {count : Nat} {act : DiskM α} {script : Script}
  {result : Except Failure α}

theorem of_follows (h : Follows m count act script result) : Commits m count act script result :=
  ⟨[], by simp, h⟩

theorem bind {f : α → DiskM β} {a : α} {result' : Except Failure β}
    (h : Answers m count act (.ok a)) (h' : Commits m count (f a) script result') :
    Commits m count (act >>= f) script result' := by
  obtain ⟨l, hl, h⟩ := h
  obtain ⟨l', hl', h'⟩ := h'
  refine ⟨l ++ l', fun s hs => (List.mem_append.mp hs).elim (hl s) (hl' s), ?_⟩
  rw [Script.reads_append, List.append_assoc]
  exact h.bind_reads h'

theorem ok_bind {x : Except Refusal α} {f : α → DiskM β} {a : α} {result' : Except Failure β}
    (h : x = .ok a) (h' : Commits m count (f a) script result') :
    Commits m count (liftM x >>= f) script result' :=
  bind (Answers.of_nil (Follows.of_ok_refusal h)) h'

theorem map {f : α → β} {a : α} (h : Commits m count act script (.ok a)) :
    Commits m count (do return f (← act)) script (.ok (f a)) := by
  obtain ⟨l, hl, h⟩ := h
  exact ⟨l, hl, h.map⟩

theorem eval (h : Commits m count act script result) {p : FaultPlan} (hp : p.Faultless)
    (hscript : script.Within count) (hm : sectorSize * count ≤ m.size) :
    ∃ q, q.Faultless ∧ act ⟨m, count, p⟩ = answer result ⟨script.medium m, count, q⟩ := by
  obtain ⟨l, hl, h⟩ := h
  refine ⟨_, Script.plan_faultless hp (Script.reads l ++ script), ?_⟩
  rw [h.eval hp (Script.within_append.mpr ⟨Script.within_reads.mpr hl, hscript⟩) hm,
    Script.medium_append, Script.medium_reads]

/-- Whatever faults there are, the request does a part of its script. -/
theorem exists_take (h : Commits m count act script result) (p : FaultPlan) :
    ∃ k q, (act ⟨m, count, p⟩ = answer result ⟨script.medium m, count, q⟩) ∨
      ∃ e, act ⟨m, count, p⟩
        = .error (.refused (.device e)) ⟨Script.medium m (script.take k), count, q⟩ := by
  obtain ⟨l, -, h⟩ := h
  rcases h.cases p with h | ⟨k, -, e, q, h⟩
  · rw [Script.medium_append, Script.medium_reads] at h
    exact ⟨0, _, Or.inl h⟩
  · rw [List.take_append, Script.medium_append, ← Script.reads_take, Script.medium_reads] at h
    exact ⟨_, q, Or.inr ⟨e, h⟩⟩

end Commits

/--
The request is refused as planned, or it reads sectors of the disk and then makes the transfers of
what is planned.
-/
structure Performs {κ α : Type} (m : Medium) (count : Nat) (script : κ → Script) (result : κ → α)
    (plan : Except Refusal κ) (act : DiskM α) : Prop where
  commits : ∀ k, plan = .ok k → Commits m count act (script k) (.ok (result k))
  answers : ∀ cause, plan = .error cause → Answers m count act (.error (.refused cause))

namespace Performs

variable {κ α β : Type} {m : Medium} {count : Nat} {script : κ → Script} {plan : Except Refusal κ}
  {act : DiskM α}

theorem of_commits {result : κ → α} {k : κ}
    (h : Commits m count act (script k) (.ok (result k))) :
    Performs m count script result (.ok k) act where
  commits _ heq := Except.ok.inj heq ▸ h
  answers _ heq := nomatch heq

theorem of_answers {result : κ → α} {cause : Refusal}
    (h : Answers m count act (.error (.refused cause))) :
    Performs m count script result (.error cause) act where
  commits _ heq := nomatch heq
  answers _ heq := Except.error.inj heq ▸ h

theorem bind {f : α → DiskM β} {result : κ → β} {a : α} (h : Answers m count act (.ok a))
    (h' : Performs m count script result plan (f a)) :
    Performs m count script result plan (act >>= f) where
  commits k heq := Commits.bind h (h'.commits k heq)
  answers cause heq := h.bind (h'.answers cause heq)

theorem refused {f : α → DiskM β} {result : κ → β} {cause : Refusal}
    (h : Answers m count act (.error (.refused cause))) :
    Performs m count script result (.error cause) (act >>= f) :=
  of_answers h.bind_error

theorem ok_bind {x : Except Refusal α} {f : α → DiskM β} {result : κ → β} {a : α} (h : x = .ok a)
    (h' : Performs m count script result plan (f a)) :
    Performs m count script result plan (liftM x >>= f) :=
  bind (Answers.of_nil (Follows.of_ok_refusal h)) h'

theorem error_bind {x : Except Refusal α} {f : α → DiskM β} {result : κ → β} {cause : Refusal}
    (h : x = .error cause) : Performs m count script result (.error cause) (liftM x >>= f) :=
  of_answers (Answers.error_bind h)

theorem map {result : κ → α} (f : α → β) (h : Performs m count script result plan act) :
    Performs m count script (fun k => f (result k)) plan (do return f (← act)) where
  commits k heq := (h.commits k heq).map
  answers cause heq := (h.answers cause heq).bind_error

end Performs

/-- On a disk without faults the request answers, and leaves this medium. -/
def Yields {α : Type} (m : Medium) (count : Nat) (act : DiskM α) (m' : Medium)
    (result : Except Failure α) : Prop :=
  ∀ p : FaultPlan, p.Faultless → ∃ q : FaultPlan, q.Faultless ∧
    act ⟨m, count, p⟩ = answer result ⟨m', count, q⟩

namespace Yields

variable {α β : Type} {m m' m'' : Medium} {count : Nat} {act : DiskM α}
  {result : Except Failure α}

theorem pure (a : α) : Yields m count (Pure.pure a) m (.ok a) := fun p hp => ⟨p, hp, rfl⟩

theorem of_commits {script : Script} (h : Commits m count act script result)
    (hscript : script.Within count) (hm : sectorSize * count ≤ m.size) :
    Yields m count act (script.medium m) result :=
  fun _ hp => h.eval hp hscript hm

theorem of_answers (h : Answers m count act result) (hm : sectorSize * count ≤ m.size) :
    Yields m count act m result :=
  fun _ hp => h.eval hp hm

theorem of_follows {script : Script} (h : Follows m count act script result)
    (hscript : script.Within count) (hm : sectorSize * count ≤ m.size) :
    Yields m count act (script.medium m) result :=
  of_commits (Commits.of_follows h) hscript hm

theorem bind {f : α → DiskM β} {a : α} {result' : Except Failure β}
    (h : Yields m count act m' (.ok a)) (h' : Yields m' count (f a) m'' result') :
    Yields m count (act >>= f) m'' result' := by
  intro p hp
  obtain ⟨q, hq, hact⟩ := h p hp
  obtain ⟨q', hq', hact'⟩ := h' q hq
  refine ⟨q', hq', ?_⟩
  rw [bind_apply, hact]
  exact hact'

theorem bind_error {f : α → DiskM β} {cause : Failure} (h : Yields m count act m' (.error cause)) :
    Yields m count (act >>= f) m' (.error cause) := by
  intro p hp
  obtain ⟨q, hq, hact⟩ := h p hp
  exact ⟨q, hq, by rw [bind_apply, hact]; rfl⟩

theorem sync : Yields m count (liftM Disk.sync : DiskM Unit) m (.ok ()) := by
  intro p hp
  refine ⟨p, hp, ?_⟩
  simp only [liftM, monadLift, MonadLift.monadLift, Disk.sync, hp.sync]
  rfl

end Yields

/-! ## Tables -/

namespace Entry

@[simp] theorem inUse_named (name : String) (sector : Int32) (kind : EntryKind) :
    (named name sector kind).inUse = true := rfl

theorem isDirectory_named (name : String) (sector : Int32) (kind : EntryKind) :
    (named name sector kind).isDirectory = true ↔ kind = .directory := by
  cases kind
  · exact ⟨fun h => absurd h (by decide : ¬ ((EntryKind.file == .directory) = true)), nofun⟩
  · exact ⟨fun _ => rfl, fun _ => rfl⟩

@[simp] theorem inUse_retired (e : Entry) : e.retired.inUse = false := rfl

end Entry

namespace Directory

variable {d d' : Directory} {name : String}

theorem find?_eq_some {e : Entry} (h : d.find? name = some e) :
    ∃ i, d.findIdx? name = some i ∧ d.slots[i]? = some e ∧ e.inUse = true ∧ e.name = name := by
  obtain ⟨hholds, i, hi, rfl, hbefore⟩ := Array.find?_eq_some_iff_getElem.mp h
  obtain ⟨hused, hname⟩ : d.slots[i].inUse = true ∧ d.slots[i].name = name := by
    simpa [holds] using hholds
  refine ⟨i, Array.findIdx?_eq_some_iff_getElem.mpr ⟨hi, hholds, fun j hj => ?_⟩,
    Array.getElem?_eq_getElem hi, hused, hname⟩
  simpa using hbefore j hj

theorem name_ne_of_find?_eq_none (h : d.find? name = none) {i : Nat} {e : Entry}
    (hi : d.slots[i]? = some e) (hused : e.inUse = true) : e.name ≠ name := by
  have hnot := Array.find?_eq_none.mp h e (Array.mem_of_getElem? hi)
  simpa [holds, hused] using hnot

theorem find?_eq_of_distinct {i : Nat} {e : Entry} (hi : d.slots[i]? = some e)
    (hused : e.inUse = true) (hdistinct : ∀ (j : Nat) (e' : Entry), d.slots[j]? = some e' →
      e'.inUse = true → e'.name = e.name → j = i) : d.find? e.name = some e := by
  cases hfind : d.find? e.name with
  | none => exact absurd rfl (name_ne_of_find?_eq_none hfind hi hused)
  | some e' =>
    obtain ⟨j, -, hj, hused', hname⟩ := find?_eq_some hfind
    obtain rfl := hdistinct j e' hj hused' hname
    rw [← hi, ← hj]

theorem add_eq_ok {sector : Int32} {kind : EntryKind} (h : d.add name sector kind = .ok d') :
    ∃ i, d.slots.findIdx? (! ·.inUse) = some i ∧
      (∃ hi : i < d.slots.size, d.slots[i].inUse = false ∧
        ∀ j (hj : j < i), d.slots[j].inUse = true) ∧
      d' = ⟨d.slots.setIfInBounds i (.named name sector kind)⟩ := by
  unfold add at h
  split at h
  · cases h
  split at h
  · cases h
  split at h
  · cases h
  split at h
  · cases h
  · rename_i i hfind
    obtain ⟨hi, hfree, hbefore⟩ := Array.findIdx?_eq_some_iff_getElem.mp hfind
    cases h
    exact ⟨i, hfind, ⟨hi, by simpa using hfree, fun j hj => by simpa using hbefore j hj⟩, rfl⟩

section

variable {file : OpenFile} {walked rest : List String} {e : Entry}

theorem descend_none (h : d.find? name = none) : descend file d walked (name :: rest)
    = refuse (.notFound (Path.ofNames (walked ++ [name]))) := by
  rw [descend, h]

theorem descend_directory (h : d.find? name = some e) (he : e.isDirectory = true) :
    descend file d walked (name :: rest) = (do
      let (file, d) ← openAt e.sector
      descend file d (walked ++ [name]) rest) := by
  rw [descend, h]
  exact if_pos he

theorem descend_file (h : d.find? name = some e) (he : ¬ e.isDirectory = true) :
    descend file d walked (name :: rest)
      = refuse (.notADirectory (Path.ofNames (walked ++ [name]))) := by
  rw [descend, h]
  exact if_neg he

theorem subtree_file {fuel depth : Nat} {rest : List Entry} (he : ¬ e.isDirectory = true) :
    subtree fuel depth (e :: rest) = (do
      let after ← subtree fuel depth rest
      return (depth, e) :: after) := by
  cases fuel <;> rw [subtree, if_neg he] <;> rfl

end

theorem remove_eq_ok {e : Entry} (h : d.find? name = some e) :
    ∃ i, d.slots[i]? = some e ∧ e.inUse = true ∧
      d.remove name = .ok ⟨d.slots.modify i .retired⟩ := by
  obtain ⟨i, hidx, hi, hused, -⟩ := find?_eq_some h
  refine ⟨i, hi, hused, ?_⟩
  rw [remove, hidx]

end Directory

/-! ## Directories -/

/-- The file whose header lies at `p`, as it is opened. -/
def OpenFile.opened (m : Medium) (p : Int32) : OpenFile :=
  { sector := p, header := Header.stored m (Word.wide p) }

theorem OpenFile.answers_openAt {m : Medium} {count : Nat} {p : Int32} (h : Word.wide p < count) :
    Answers m count (OpenFile.openAt p) (.ok (opened m p)) :=
  Answers.map (f := fun h => ({ sector := p, header := h } : OpenFile))
    (Answers.map (f := Header.ofSector) (Answers.readSector h))

/-- The volume on a medium, as it is mounted. -/
def Volume.on (m : Medium) : Volume where
  mapFile := .opened m mapSector
  rootFile := .opened m rootSector

theorem Volume.answers_openFiles {m : Medium} {count : Nat} (h : Word.wide rootSector < count) :
    Answers m count Volume.openFiles (.ok (Volume.on m)) := by
  have hmap : Word.wide mapSector < Word.wide rootSector := by decide
  exact (OpenFile.answers_openAt (Nat.lt_trans hmap h)).bind (OpenFile.answers_openAt h).map

namespace Tree

open OpenFile (opened)

variable {m : Medium} {count : Nat}

/--
The header of the directory that a list of names leads to from the one at `p`, in a tree with the
given tables.
-/
def walk (tables : Nat → Directory) (p : Int32) (walked : List String) :
    List String → Except Refusal Int32
  | [] => .ok p
  | name :: rest =>
    match (tables (Word.wide p)).find? name with
    | none => .error (.notFound (Path.ofNames (walked ++ [name])))
    | some e =>
      if e.isDirectory then walk tables e.sector (walked ++ [name]) rest
      else .error (.notADirectory (Path.ofNames (walked ++ [name])))

section

variable {tables : Nat → Directory} {p : Int32} {walked rest : List String} {name : String}

theorem walk_none (h : (tables (Word.wide p)).find? name = none) :
    walk tables p walked (name :: rest)
      = .error (.notFound (Path.ofNames (walked ++ [name]))) := by
  rw [walk, h]

theorem walk_directory {e : Entry} (h : (tables (Word.wide p)).find? name = some e)
    (he : e.isDirectory = true) : walk tables p walked (name :: rest)
      = walk tables e.sector (walked ++ [name]) rest := by
  rw [walk, h]
  exact if_pos he

theorem walk_file {e : Entry} (h : (tables (Word.wide p)).find? name = some e)
    (he : ¬ e.isDirectory = true) : walk tables p walked (name :: rest)
      = .error (.notADirectory (Path.ofNames (walked ++ [name]))) := by
  rw [walk, h]
  exact if_neg he

end

theorem exists_slot {d : Nat} {name : String} {e : Entry} (h : (table m d).find? name = some e) :
    ∃ i, slot? m d i = some e ∧
      (table m d).remove name = .ok ⟨(table m d).slots.modify i .retired⟩ := by
  obtain ⟨i, hi, hused, hremove⟩ := Directory.remove_eq_ok h
  exact ⟨i, slot?_eq_some.mpr ⟨hi, hused⟩, hremove⟩

theorem reached_walk {p q : Int32} {walked names : List String} (hp : Reached m (Word.wide p))
    (h : walk (table m) p walked names = .ok q) : Reached m (Word.wide q) := by
  induction names generalizing p walked with
  | nil =>
    cases h
    exact hp
  | cons name rest ih =>
    rw [walk] at h
    split at h
    · cases h
    · rename_i e he
      obtain ⟨i, hi, _⟩ := exists_slot he
      split at h
      · rename_i hdir
        exact ih (.child hp hi hdir) h
      · cases h

/-- A path ends with a name in the directory whose header lies at `p`. -/
def LeadsTo (m : Medium) (path : String) (p : Int32) (name : String) : Prop :=
  ∃ parents, Path.splitLast path = .ok (parents, name) ∧
    walk (table m) rootSector [] parents = .ok p

theorem LeadsTo.unique {path : String} {p p' : Int32} {name name' : String}
    (h : LeadsTo m path p name) (h' : LeadsTo m path p' name') : p = p' ∧ name = name' := by
  obtain ⟨parents, hsplit, hwalk⟩ := h
  obtain ⟨parents', hsplit', hwalk'⟩ := h'
  rw [hsplit] at hsplit'
  cases hsplit'
  rw [hwalk] at hwalk'
  cases hwalk'
  exact ⟨rfl, rfl⟩

theorem LeadsTo.reached {path : String} {p : Int32} {name : String} (h : LeadsTo m path p name) :
    Reached m (Word.wide p) := by
  obtain ⟨parents, -, hwalk⟩ := h
  exact reached_walk .root hwalk

/-- What is delivered of a directory that names lead to. -/
def delivered (m : Medium) : Except Refusal Int32 → Except Failure (OpenFile × Directory)
  | .ok p => .ok (opened m p, table m (Word.wide p))
  | .error cause => .error (.refused cause)

namespace Consistent

variable (hc : Consistent m count)
include hc

section

variable {m' : Medium} (hf : Framed m m')
include hf

/-- A file that is in use is read where it lies, whatever its data has become. -/
theorem exists_load_of_framed {o : Owner} {p : Int32} (h : Names m o (Word.wide p)) :
    ∃ sectors, (∀ s ∈ sectors, s < count) ∧
      (opened m' p).header.loadScript m' = Script.reads sectors := by
  obtain ⟨sectors, heq, hsub⟩ := Header.exists_loadScript (hf.intact h (hc.intact _ _ h))
  refine ⟨sectors, fun s hs => hc.sectors_lt h ?_, heq⟩
  rw [← hf.data_eq h, ← hf.index_eq h]
  exact hsub hs

theorem answers_fetchMap_of_framed :
    Answers m' count (Volume.on m').fetchMap (.ok (bitmap m' count)) := by
  obtain ⟨sectors, hlt, heq⟩ := hc.exists_load_of_framed hf .map
  have hfetch : Follows m' count (SectorMap.fetch (opened m' mapSector) count) _ _ :=
    SectorMap.follows_fetch (hf.intact .map (hc.intact _ _ .map))
      ((congrArg Header.length (hf.stored_eq .map)).trans hc.map_length)
  rw [heq] at hfetch
  exact (Answers.of_nil Follows.sectorCount).bind ⟨sectors, hlt, hfetch⟩

theorem answers_fetch_of_framed {p : Int32} (hp : Reached m (Word.wide p)) :
    Answers m' count (Directory.fetch (opened m' p) directorySlots)
      (.ok (table m' (Word.wide p))) := by
  obtain ⟨o, -, ho⟩ := exists_names hp
  obtain ⟨sectors, hlt, heq⟩ := hc.exists_load_of_framed hf ho
  have hfetch : Follows m' count (Directory.fetch (opened m' p) directorySlots) _ _ :=
    Directory.follows_fetch (hf.intact ho (hc.intact _ _ ho))
      ((congrArg Header.length (hf.stored_eq ho)).trans (hc.directory_length _ hp))
  rw [heq] at hfetch
  exact ⟨sectors, hlt, hfetch⟩

theorem answers_openAt_of_framed {p : Int32} (hp : Reached m (Word.wide p)) :
    Answers m' count (Directory.openAt p) (.ok (opened m' p, table m' (Word.wide p))) := by
  obtain ⟨o, -, ho⟩ := exists_names hp
  exact (OpenFile.answers_openAt (hc.names_lt ho)).bind (hc.answers_fetch_of_framed hf hp).map

end

theorem exists_load {o : Owner} {p : Int32} (h : Names m o (Word.wide p)) :
    ∃ sectors, (∀ s ∈ sectors, s < count) ∧
      (opened m p).header.loadScript m = Script.reads sectors :=
  hc.exists_load_of_framed (.refl m) h

theorem answers_openFile {o : Owner} {p : Int32} (h : Names m o (Word.wide p)) :
    Answers m count (OpenFile.openAt p) (.ok (opened m p)) :=
  OpenFile.answers_openAt (hc.names_lt h)

theorem answers_fetchMap :
    Answers m count (Volume.on m).fetchMap (.ok (bitmap m count)) :=
  hc.answers_fetchMap_of_framed (.refl m)

theorem answers_fetch {p : Int32} (hp : Reached m (Word.wide p)) :
    Answers m count (Directory.fetch (opened m p) directorySlots)
      (.ok (table m (Word.wide p))) :=
  hc.answers_fetch_of_framed (.refl m) hp

theorem answers_openAt {p : Int32} (hp : Reached m (Word.wide p)) :
    Answers m count (Directory.openAt p) (.ok (opened m p, table m (Word.wide p))) :=
  hc.answers_openAt_of_framed (.refl m) hp

/-- A list of names is followed through the tables of the tree. -/
theorem answers_descend {p : Int32} {walked : List String} (names : List String)
    (hp : Reached m (Word.wide p)) :
    Answers m count (Directory.descend (opened m p) (table m (Word.wide p)) walked names)
      (delivered m (walk (table m) p walked names)) := by
  induction names generalizing p walked with
  | nil => exact Answers.pure _
  | cons name rest ih =>
    cases hfind : (table m (Word.wide p)).find? name with
    | none =>
      rw [Directory.descend_none hfind, walk_none hfind]
      exact Answers.refuse _
    | some e =>
      by_cases hdir : e.isDirectory = true
      · obtain ⟨i, hi, _⟩ := exists_slot hfind
        have he : Reached m (Word.wide e.sector) := .child hp hi hdir
        rw [Directory.descend_directory hfind hdir, walk_directory hfind hdir]
        exact (hc.answers_openAt he).bind (ih he)
      · rw [Directory.descend_file hfind hdir, walk_file hfind hdir]
        exact Answers.refuse _

theorem answers_resolve (names : List String) :
    Answers m count ((Volume.on m).resolve names)
      (delivered m (walk (table m) rootSector [] names)) :=
  (hc.answers_fetch .root).bind (hc.answers_descend names .root)

end Consistent

end Tree

end IndexedDisk
