import IndexedDisk.Proofs.Requests

/-!
# Requests that look around

The answers of the requests that only look around. Their paths are followed in
`IndexedDisk.Proofs.Lookup`; here the file system answers with what was found there.

* `exists_below`: a line of directories has no more of them than the disk has sectors, so that every
  listing comes to an end.
* `perform_openFile`, `perform_list`, `perform_listTree`, `perform_freeSectors`: what is answered.
-/

open IndexedDisk.Tree IndexedDisk.OpenFile

namespace IndexedDisk

namespace Tree

-- the tables of a tree are never evaluated
seal table

variable {m : Medium} {count : Nat}

theorem Consistent.answers_freeSectors (hc : Consistent m count) :
    Answers m count (Volume.on m).freeSectors (.ok (bitmap m count).free.length) :=
  hc.answers_fetchMap.bind
    (Answers.of_nil (Follows.of_ok (SectorMap.freeCount_eq hc.tidy)))

/-! ## Depth -/

/-- Directories of which each is named in the one after it. The last is the root. -/
inductive Line (m : Medium) : List Nat → Prop
  | root : Line m [Word.wide rootSector]
  | child {d i : Nat} {e : Entry} {l : List Nat} (h : Line m (d :: l)) (hi : slot? m d i = some e)
      (hdir : e.isDirectory = true) : Line m (Word.wide e.sector :: d :: l)

namespace Line

theorem reached {l : List Nat} (h : Line m l) : ∀ d ∈ l, Reached m d := by
  induction h with
  | root => exact List.forall_mem_singleton.mpr .root
  | child h hi hdir ih =>
    exact List.forall_mem_cons.mpr ⟨.child (ih _ (List.mem_cons_self ..)) hi hdir, ih⟩

theorem tail {d d' : Nat} {l : List Nat} (h : Line m (d :: d' :: l)) : Line m (d' :: l) := by
  cases h with
  | child h => exact h

theorem of_append {l l' : List Nat} {d : Nat} (h : Line m (l ++ d :: l')) : Line m (d :: l') := by
  induction l with
  | nil => exact h
  | cons d' l ih =>
    cases l with
    | nil => exact h.tail
    | cons d'' l => exact ih h.tail

theorem exists_of_reached {d : Nat} (hd : Reached m d) : ∃ l, Line m (d :: l) := by
  induction hd with
  | root => exact ⟨_, .root⟩
  | child _ hi hdir ih =>
    obtain ⟨l, hl⟩ := ih
    exact ⟨_, .child hl hi hdir⟩

variable (hc : Consistent m count)
include hc

/-- There is one line from each directory, because only one entry names it. -/
theorem unique {l l' : List Nat} (h : Line m l) (h' : Line m l') (heq : l.head? = l'.head?) :
    l = l' := by
  induction h generalizing l' with
  | root =>
    cases h' with
    | root => rfl
    | child h' hi hdir =>
      have hentry : Names m _ _ := .entry (h'.reached _ (List.mem_cons_self ..)) hi
      rw [← Option.some.inj heq] at hentry
      cases hc.names_injective hentry .root
  | child h hi hdir ih =>
    have hentry : Names m _ _ := .entry (h.reached _ (List.mem_cons_self ..)) hi
    cases h' with
    | root =>
      rw [Option.some.inj heq] at hentry
      cases hc.names_injective hentry .root
    | child h' hi' hdir' =>
      have hentry' : Names m _ _ := .entry (h'.reached _ (List.mem_cons_self ..)) hi'
      rw [Option.some.inj heq] at hentry ⊢
      obtain ⟨rfl, -⟩ := Owner.entry.inj (hc.names_injective hentry hentry')
      rw [ih h' rfl]

theorem nodup {l : List Nat} (h : Line m l) : l.Nodup := by
  induction h with
  | root => exact List.pairwise_singleton ..
  | @child d i e l h hi hdir ih =>
    refine List.nodup_cons.mpr ⟨fun hmem => ?_, ih⟩
    obtain ⟨a, b, hsplit⟩ := List.append_of_mem hmem
    have hrest : Line m (Word.wide e.sector :: b) := of_append (hsplit ▸ h)
    have heq := congrArg List.length (unique hc (child h hi hdir) hrest rfl)
    have hlength := congrArg List.length hsplit
    simp only [List.length_cons, List.length_append] at heq hlength
    omega

theorem length_le {l : List Nat} (h : Line m l) : l.length ≤ count := by
  have hsub : l ⊆ List.range count := fun d hd => by
    obtain ⟨o, -, ho⟩ := exists_names (h.reached d hd)
    exact List.mem_range.mpr (hc.names_lt ho)
  have hle := (List.subperm_of_subset (h.nodup hc) hsub).length_le
  rwa [List.length_range] at hle

end Line

namespace Consistent

variable (hc : Consistent m count)
include hc

/-- What lies below a directory comes to an end. -/
theorem exists_below {fuel d : Nat} (depth : Nat) {l : List Nat} {entries : List Entry}
    (hline : Line m (d :: l)) (hfuel : count < fuel + (d :: l).length)
    (h : ∀ e ∈ entries, ∃ i, slot? m d i = some e) :
    ∃ found, below (table m) fuel depth entries = .ok found := by
  -- along the listing: the line grows by a directory where the listing follows it down
  induction fuel, depth, entries using below.induct (table m) generalizing d l with
  | case1 fuel depth => exact ⟨[], by rw [below]⟩
  | case2 depth e rest hdir ih =>
    have hle := hline.length_le hc
    omega
  | case3 depth e rest hdir fuel ihAfter ihInner =>
    obtain ⟨after, hafter⟩ := ihAfter hline hfuel fun e he => h e (List.mem_cons_of_mem _ he)
    obtain ⟨i, hi⟩ := h e (List.mem_cons_self ..)
    obtain ⟨inner, hinner⟩ := ihInner (hline.child hi hdir)
      (by rw [List.length_cons]; omega) exists_slot_of_mem
    rw [below_directory hdir, hafter, hinner]
    exact ⟨_, rfl⟩
  | case4 fuel depth e rest hfile ih =>
    obtain ⟨after, hafter⟩ := ih hline hfuel fun e he => h e (List.mem_cons_of_mem _ he)
    rw [below_file hfile, hafter]
    exact ⟨_, rfl⟩

end Consistent

end Tree

/-! ## Requests that look around -/

/-- The answer that a result makes. -/
def Response.of {α : Type} (f : α → Response) : Except Failure α → Response
  | .ok a => f a
  | .error cause => .failed cause

namespace FileSystem.Healthy

variable {fs : FileSystem} (h : fs.Healthy) {α : Type} {act : DiskM α} {act' : FileSystemM α}
  {result : Except Failure α}
include h

theorem answer_eq (hact : Answers fs.disk.medium fs.disk.count act result)
    (hact' : act' fs = (liftM act : FileSystemM α) fs) : ∃ q, FaultPlan.Faultless q ∧
      act' fs = answer result ⟨⟨fs.disk.medium, fs.disk.count, q⟩, fs.volume, fs.opened⟩ := by
  obtain ⟨⟨m, count, p⟩, v, t⟩ := fs
  obtain ⟨q, hq, heq⟩ := hact.eval h.faultless h.sound.consistent.covered
  exact ⟨q, hq, hact'.trans (FileSystem.lift_answer heq)⟩

theorem exists_respond_eq (hact : Answers fs.disk.medium fs.disk.count act result)
    (hact' : act' fs = (liftM act : FileSystemM α) fs) (f : α → Response) :
    ∃ q, FaultPlan.Faultless q ∧ Request.respond f act' fs
      = (.of f result, ⟨⟨fs.disk.medium, fs.disk.count, q⟩, fs.volume, fs.opened⟩) := by
  obtain ⟨q, hq, heq⟩ := h.answer_eq hact hact'
  refine ⟨q, hq, ?_⟩
  cases result with
  | ok a => rw [Request.respond_ok heq, Response.of]
  | error cause => rw [Request.respond_error heq, Response.of]

theorem respond_eq (hact : Answers fs.disk.medium fs.disk.count act result)
    (hact' : act' fs = (liftM act : FileSystemM α) fs) (f : α → Response) :
    (Request.respond f act' fs).1 = .of f result := by
  obtain ⟨q, -, heq⟩ := h.exists_respond_eq hact hact' f
  rw [heq]

theorem openPath_eq (path : String) : ∃ q, FaultPlan.Faultless q ∧ FileSystem.openPath path fs
    = answer (((found fs.disk.medium path).map fun e =>
        OpenFile.opened fs.disk.medium e.sector).mapError .refused)
      ⟨⟨fs.disk.medium, fs.disk.count, q⟩, fs.volume, fs.opened⟩ := by
  refine h.answer_eq (h.sound.consistent.answers_openPath path) ?_
  rw [← h.volume_eq]
  exact FileSystem.getVolume_bind (·.openPath path)

theorem perform_openFile {path : String} {e : Entry} {draws : List Int32} {id : Int32}
    (hfound : found fs.disk.medium path = .ok e) (hid : fs.opened.pick? draws = some id) :
    ∃ q, FaultPlan.Faultless q ∧ (Request.openFile path draws).perform fs
      = (.opened (some id), ⟨⟨fs.disk.medium, fs.disk.count, q⟩, fs.volume,
          fs.opened.insert id (OpenFile.opened fs.disk.medium e.sector)⟩) := by
  obtain ⟨⟨m, count, p⟩, v, t⟩ := fs
  obtain rfl : v = Volume.on m := h.volume_eq
  obtain ⟨q, hq, heq⟩ :=
    Request.perform_openFile (t := t) h.sound.consistent h.faultless draws hfound
  dsimp only at hid
  rw [hid] at heq
  exact ⟨q, hq, heq⟩

theorem perform_list (path : String) : ((Request.list path).perform fs).1
    = .of .listed ((listed fs.disk.medium path).mapError .refused) := by
  refine h.respond_eq (h.sound.consistent.answers_list path) ?_ _
  rw [← h.volume_eq]
  exact FileSystem.getVolume_bind (·.list path)

theorem perform_listTree (path : String) : ((Request.listTree path).perform fs).1
    = .of .listedTree (listedTree fs.disk.medium fs.disk.count path) := by
  refine h.respond_eq (h.sound.consistent.answers_listTree path) ?_ _
  rw [← h.volume_eq]
  exact FileSystem.getVolume_bind (·.listTree path)

theorem perform_freeSectors : (Request.freeSectors.perform fs).1
    = .counted (bitmap fs.disk.medium fs.disk.count).free.length := by
  refine h.respond_eq h.sound.consistent.answers_freeSectors ?_ _
  rw [← h.volume_eq]
  exact FileSystem.getVolume_bind Volume.freeSectors

end FileSystem.Healthy

end IndexedDisk
