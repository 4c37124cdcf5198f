import IndexedDisk.Proofs.Refusing
import Mathlib.Order.Bounds.Basic

/-!
# Following names on any disk

What it is to follow names down from a directory when nothing is known of the disk: the headers and
the entries may be damaged, directories may contain each other, and any sectors may be unreadable. A
table lies in the first sectors of its file, which every header names itself, so that only the disk
can keep it from being read (`Directory.unstopped_openAt`).

* `descend_append`: names are followed one after the other.
* `fetch_of_descend`: the table that names lead to is the one that is read from the file.
* `resolution_composes`: following names in two parts, and where it ends.
-/

namespace IndexedDisk

/-! ## Requests that only the disk stops -/

/-- Only the disk stops the request: it is refused for nothing else, and does not break off. -/
def Unstopped {α : Type} (act : DiskM α) : Prop :=
  ∀ disk cause disk', act disk = .error cause disk' → ∃ e, cause = .refused (.device e)

namespace Unstopped

variable {α β ρ : Type} {act : DiskM α}

theorem pure (a : α) : Unstopped (Pure.pure a) := nofun

theorem bind {f : α → DiskM β} (h : Unstopped act) (hf : ∀ a, Unstopped (f a)) :
    Unstopped (act >>= f) := by
  intro disk cause disk' hact
  rw [bind_apply] at hact
  cases hfirst : act disk with
  | ok a disk₁ =>
    rw [hfirst] at hact
    exact hf a disk₁ cause disk' hact
  | error e disk₁ =>
    rw [hfirst] at hact
    cases hact
    exact h disk cause disk' hfirst

theorem map {f : α → β} (h : Unstopped act) : Unstopped (do return f (← act)) :=
  h.bind fun _ => pure _

theorem readSector (s : Nat) : Unstopped (Disk.readSector s) := by
  rintro ⟨m, count, p⟩ cause disk' hact
  rw [Disk.readSector_apply] at hact
  split at hact
  · cases hact
  · next e _ =>
    cases hact
    exact ⟨e, rfl⟩

theorem runOn_pure (a : α) (v : ρ) : Unstopped (Disk.runOn v (Pure.pure a)) := nofun

theorem runOn_lift (h : Unstopped act) (v : ρ) : Unstopped (Disk.runOn v (liftM act)) := by
  intro disk cause disk' hact
  simp only [Disk.runOn, liftM, monadLift, MonadLift.monadLift] at hact
  cases hfirst : act disk with
  | ok a disk₁ =>
    rw [hfirst] at hact
    cases hact
  | error e disk₁ =>
    rw [hfirst] at hact
    cases hact
    exact h disk cause disk' hfirst

theorem runOn_bind {act : Disk.WithM ρ α} {f : α → Disk.WithM ρ β} {v : ρ}
    (h : Unstopped (Disk.runOn v act)) (hf : ∀ a v, Unstopped (Disk.runOn v (f a))) :
    Unstopped (Disk.runOn v (act >>= f)) := by
  rw [Follows.runOn_bind_eq]
  exact h.bind fun x => hf x.1 x.2

end Unstopped

namespace OpenFile

theorem unstopped_openAt (p : Int32) : Unstopped (openAt p) := (Unstopped.readSector _).map.map

variable (f : OpenFile)

/-- The header itself names the first sectors of the file. -/
theorem unstopped_readSpan (position : Nat) {span : Span} (hlength : span.offset < f.length)
    (hdirect : span.offset < directPointers * sectorSize) (buffer : Array UInt8) :
    Unstopped (Disk.runOn buffer (f.readSpan position span)) := by
  have hlength : ¬ f.header.length ≤ span.offset := Nat.not_le.mpr hlength
  have hindex : span.offset / sectorSize < directPointers :=
    Nat.div_lt_of_lt_mul (Nat.mul_comm .. ▸ hdirect)
  have hsector : f.header.sectorOf span.offset
      = Pure.pure f.header.direct[span.offset / sectorSize] := by
    rw [Header.sectorOf, if_neg hlength, Header.locate, dif_pos hindex]
    rfl
  unfold readSpan
  rw [hsector]
  refine Unstopped.runOn_bind ((Unstopped.pure _).runOn_lift _) fun sector buffer => ?_
  refine Unstopped.runOn_bind ((Unstopped.readSector _).runOn_lift _) fun bytes buffer => ?_
  intro disk cause disk' h
  cases h

theorem unstopped_readSpans (position : Nat) {spans : List Span}
    (h : ∀ span ∈ spans, span.offset < f.length ∧ span.offset < directPointers * sectorSize)
    (buffer : Array UInt8) : Unstopped (Disk.runOn buffer (f.readSpans position spans)) := by
  induction spans generalizing buffer with
  | nil => exact Unstopped.runOn_pure () buffer
  | cons span rest ih =>
    obtain ⟨⟨hlength, hdirect⟩, hrest⟩ := List.forall_mem_cons.mp h
    exact Unstopped.runOn_bind (f.unstopped_readSpan position hlength hdirect buffer)
      fun _ buffer => ih hrest buffer

theorem unstopped_readAt_zero {buffer : Array UInt8}
    (hsize : buffer.size ≤ directPointers * sectorSize) :
    Unstopped (Disk.runOn buffer (f.readAt 0)) := by
  have hroom : Disk.runOn buffer room = Pure.pure (buffer.size, buffer) := rfl
  rw [readAt, Follows.runOn_bind_eq, hroom, pure_bind]
  dsimp only
  split
  · exact Unstopped.runOn_pure 0 buffer
  · have hstop : f.stop 0 buffer.size = .ok (min (0 + buffer.size) f.length) :=
      if_pos (by simp only [directPointers, sectorSize] at hsize; omega)
    have hlift : (liftM (f.stop 0 buffer.size) : Disk.WithM (Array UInt8) Nat)
        = Pure.pure (min (0 + buffer.size) f.length) := by rw [hstop]; rfl
    rw [hlift, pure_bind]
    refine Unstopped.runOn_bind (f.unstopped_readSpans 0 (fun span hspan => ?_) buffer)
      fun _ buffer => Unstopped.runOn_pure _ buffer
    have := bounds_of_mem_spans hspan
    omega

end OpenFile

namespace Directory

theorem unstopped_fetch (f : OpenFile) : Unstopped (fetch f directorySlots) := by
  rw [fetch_eq]
  exact (f.unstopped_readAt_zero (by rw [Array.size_replicate]; decide)).map

theorem unstopped_openAt (p : Int32) : Unstopped (openAt p) :=
  (OpenFile.unstopped_openAt p).bind fun f => (unstopped_fetch f).map

/-! ## Names in a row -/

variable {file file' : OpenFile} {d d' : Directory} {walked names : List String}

theorem descend_append (file : OpenFile) (d : Directory) (walked before after : List String) :
    descend file d walked (before ++ after) = (do
      let (file, d) ← descend file d walked before
      descend file d (walked ++ before) after) := by
  induction before generalizing file d walked with
  | nil => simp [descend]
  | cons name rest ih =>
    cases hfind : d.find? name with
    | none =>
      rw [List.cons_append, descend_none hfind, descend_none hfind]
      rfl
    | some e =>
      by_cases hdir : e.isDirectory = true
      · rw [List.cons_append, descend_directory hfind hdir, descend_directory hfind hdir]
        simp only [bind_assoc, ih, List.append_assoc, List.singleton_append]
      · rw [List.cons_append, descend_file hfind hdir, descend_file hfind hdir]
        rfl

theorem descend_eq_ok_iff (walked walked' : List String) {disk disk' : Disk}
    {x : OpenFile × Directory} : descend file d walked names disk = .ok x disk' ↔
      descend file d walked' names disk = .ok x disk' := by
  induction names generalizing file d walked walked' disk with
  | nil => rw [descend, descend]
  | cons name rest ih =>
    cases hfind : d.find? name with
    | none =>
      rw [descend_none hfind, descend_none hfind]
      exact iff_of_false (fun h => by cases h) fun h => by cases h
    | some e =>
      by_cases hdir : e.isDirectory = true
      · rw [descend_directory hfind hdir, descend_directory hfind hdir, bind_apply, bind_apply]
        cases openAt e.sector disk with
        | ok y disk₁ => exact ih _ _
        | error cause disk₁ => exact Iff.rfl
      · rw [descend_file hfind hdir, descend_file hfind hdir]
        exact iff_of_false (fun h => by cases h) fun h => by cases h

theorem descend_eq_error {disk disk' : Disk} {cause : Failure}
    (h : descend file d walked names disk = .error cause disk') :
    (∃ e, cause = .refused (.device e)) ∨ ∃ before name after file' d',
      names = before ++ name :: after ∧ descend file d walked before disk = .ok (file', d') disk' ∧
      ((d'.find? name = none ∧
          cause = .refused (.notFound (Path.ofNames (walked ++ before ++ [name])))) ∨
        ∃ e, d'.find? name = some e ∧ ¬ e.isDirectory = true ∧
          cause = .refused (.notADirectory (Path.ofNames (walked ++ before ++ [name])))) := by
  induction names generalizing file d walked disk with
  | nil =>
    rw [descend] at h
    cases h
  | cons name rest ih =>
    cases hfind : d.find? name with
    | none =>
      rw [descend_none hfind] at h
      cases h
      exact .inr ⟨[], name, rest, file, d, rfl, by rw [descend]; rfl,
        .inl ⟨hfind, by rw [List.append_nil]⟩⟩
    | some e =>
      by_cases hdir : e.isDirectory = true
      · rw [descend_directory hfind hdir, bind_apply] at h
        cases hopen : openAt e.sector disk with
        | error cause disk₁ =>
          rw [hopen] at h
          cases h
          exact .inl (unstopped_openAt _ _ _ _ hopen)
        | ok x disk₁ =>
          rw [hopen] at h
          refine (ih h).imp_right ?_
          rintro ⟨before, name', after, file', d', rfl, hbefore, hcause⟩
          refine ⟨name :: before, name', after, file', d', rfl, ?_, ?_⟩
          · rw [descend_directory hfind hdir, bind_apply, hopen]
            exact hbefore
          · rwa [List.append_assoc walked, List.singleton_append] at hcause
      · rw [descend_file hfind hdir] at h
        cases h
        exact .inr ⟨[], name, rest, file, d, rfl, by rw [descend]; rfl,
          .inr ⟨e, hfind, hdir, by rw [List.append_nil]⟩⟩

end Directory

/-! ## Disks that do not change -/

theorem ReadsOnly.exists_answer {α : Type} {act : DiskM α} (h : ReadsOnly act) {disk : Disk}
    (hfixed : disk.faults.reads = []) : ∃ result, act disk = answer result disk := by
  obtain ⟨m, count, p⟩ := disk
  obtain ⟨result, n, hact⟩ := h m count p
  have hp : p.afterReads n = p := by
    have hreads : p.reads = [] := hfixed
    rw [FaultPlan.afterReads, hreads, List.drop_nil, ← hreads]
  rw [hp] at hact
  exact ⟨result, hact⟩

theorem ReadsOnly.disk_eq_of_ok {α : Type} {act : DiskM α} (h : ReadsOnly act) {disk disk' : Disk}
    (hfixed : disk.faults.reads = []) {a : α} (hact : act disk = .ok a disk') : disk' = disk := by
  obtain ⟨result, heq⟩ := h.exists_answer hfixed
  rw [hact] at heq
  cases result with
  | ok b => exact (EStateM.Result.ok.inj heq).2
  | error cause => cases heq

namespace Directory

variable {file file' root : OpenFile} {d d' : Directory} {walked names : List String} {disk : Disk}

theorem fetch_of_descend (hfixed : disk.faults.reads = [])
    (hfetch : fetch file directorySlots disk = .ok d disk)
    (h : descend file d walked names disk = .ok (file', d') disk) :
    fetch file' directorySlots disk = .ok d' disk := by
  induction names generalizing file d walked with
  | nil =>
    rw [descend] at h
    cases h
    exact hfetch
  | cons name rest ih =>
    cases hfind : d.find? name with
    | none =>
      rw [descend_none hfind] at h
      cases h
    | some e =>
      by_cases hdir : e.isDirectory = true
      · rw [descend_directory hfind hdir] at h
        obtain ⟨⟨file₁, d₁⟩, disk₁, hopen, h⟩ := exists_of_bind h
        obtain rfl := (readsOnly_openAt _).disk_eq_of_ok hfixed hopen
        obtain ⟨file₂, disk₂, hheader, htable⟩ := exists_of_bind hopen
        obtain rfl := (OpenFile.readsOnly_openAt _).disk_eq_of_ok hfixed hheader
        obtain ⟨d₂, disk₃, htable, hpair⟩ := exists_of_bind htable
        cases hpair
        exact ih htable h
      · rw [descend_file hfind hdir] at h
        cases h

/-- Names are followed from a directory as they are from the one that names before them lead to. -/
theorem resolve_append (root : OpenFile) (before after : List String) :
    resolve root (before ++ after) = (do
      let (file, d) ← resolve root before
      descend file d before after) := by
  simp only [resolve, descend_append, bind_assoc, List.nil_append]

theorem resolve_append_of_ok {before : List String}
    (h : resolve root before disk = .ok (file, d) disk) (after : List String) :
    resolve root (before ++ after) disk = descend file d before after disk := by
  rw [resolve_append, bind_apply, h]

theorem resolve_append_of_error {before : List String} {cause : Failure} {disk' : Disk}
    (h : resolve root before disk = .error cause disk') (after : List String) :
    resolve root (before ++ after) disk = .error cause disk' := by
  rw [resolve_append, bind_apply, h]

theorem fetch_of_resolve (hfixed : disk.faults.reads = [])
    (h : resolve root names disk = .ok (file, d) disk) :
    fetch file directorySlots disk = .ok d disk := by
  obtain ⟨d₀, disk₀, hfetch, h⟩ := exists_of_bind h
  obtain rfl := (readsOnly_fetch _ _).disk_eq_of_ok hfixed hfetch
  exact fetch_of_descend hfixed hfetch h

theorem resolve_append_eq_ok_iff (hfixed : disk.faults.reads = []) {after : List String}
    {x : OpenFile × Directory} : resolve root (names ++ after) disk = .ok x disk ↔
      ∃ file d, resolve root names disk = .ok (file, d) disk ∧
        resolve file after disk = .ok x disk := by
  have hrest {file : OpenFile} {d : Directory} (h : resolve root names disk = .ok (file, d) disk) :
      resolve root (names ++ after) disk = .ok x disk ↔ resolve file after disk = .ok x disk := by
    rw [resolve_append_of_ok h, descend_eq_ok_iff names [], resolve, bind_apply,
      fetch_of_resolve hfixed h]
  constructor
  · intro h
    cases hbefore : resolve root names disk with
    | ok y disk' =>
      obtain rfl := (readsOnly_resolve root names).disk_eq_of_ok hfixed hbefore
      exact ⟨y.1, y.2, rfl, (hrest hbefore).mp h⟩
    | error cause disk' =>
      rw [resolve_append_of_error hbefore] at h
      cases h
  · rintro ⟨file, d, hbefore, h⟩
    exact (hrest hbefore).mpr h

theorem resolve_eq_error {cause : Failure} {disk' : Disk}
    (h : resolve root names disk = .error cause disk') :
    (∃ e, cause = .refused (.device e)) ∨ ∃ before name after file d,
      names = before ++ name :: after ∧ resolve root before disk = .ok (file, d) disk' ∧
      ((d.find? name = none ∧ cause = .refused (.notFound (Path.ofNames (before ++ [name])))) ∨
        ∃ e, d.find? name = some e ∧ ¬ e.isDirectory = true ∧
          cause = .refused (.notADirectory (Path.ofNames (before ++ [name])))) := by
  rw [resolve, bind_apply] at h
  cases hfetch : fetch root directorySlots disk with
  | error e disk₁ =>
    rw [hfetch] at h
    cases h
    exact .inl (unstopped_fetch _ _ _ _ hfetch)
  | ok d disk₁ =>
    rw [hfetch] at h
    refine (descend_eq_error h).imp_right ?_
    rintro ⟨before, name, after, file', d', rfl, hbefore, hcause⟩
    refine ⟨before, name, after, file', d', rfl, ?_, hcause⟩
    rw [resolve, bind_apply, hfetch]
    exact hbefore

/-! ## Where names stop to lead on -/

/-- Where the first `k` names lead, this is found under the next one. -/
def Meets (disk : Disk) (root : OpenFile) (names : List String) (k : Nat) (found : Option Entry) :
    Prop :=
  ∃ name file d, names[k]? = some name ∧ resolve root (names.take k) disk = .ok (file, d) disk ∧
    d.find? name = found

theorem meets_append {before after : List String} {name : String}
    (h : resolve root before disk = .ok (file, d) disk) :
    Meets disk root (before ++ name :: after) before.length (d.find? name) :=
  ⟨name, file, d, by simp, by rwa [List.take_left], rfl⟩

/-- What comes of names that meet with something depends on what that is. -/
theorem Meets.exists_resolve_eq {k : Nat} {found : Option Entry}
    (h : Meets disk root names k found) : ∃ name file d after, d.find? name = found ∧
      names.take (k + 1) = names.take k ++ [name] ∧
      resolve root names disk = descend file d (names.take k) (name :: after) disk := by
  obtain ⟨name, file, d, hname, hbefore, hfind⟩ := h
  obtain ⟨hk, rfl⟩ := List.getElem?_eq_some_iff.mp hname
  refine ⟨_, file, d, names.drop (k + 1), hfind, List.take_succ_eq_append_getElem hk, ?_⟩
  rw [← resolve_append_of_ok hbefore, List.getElem_cons_drop, List.take_append_drop]

theorem Meets.resolve_none {k : Nat} (h : Meets disk root names k none) :
    resolve root names disk
      = .error (.refused (.notFound (Path.ofNames (names.take (k + 1))))) disk := by
  obtain ⟨name, file, d, after, hfind, htake, heq⟩ := h.exists_resolve_eq
  rw [heq, descend_none hfind, htake]
  rfl

theorem Meets.resolve_file {k : Nat} {e : Entry} (h : Meets disk root names k (some e))
    (hfile : ¬ e.isDirectory = true) : resolve root names disk
      = .error (.refused (.notADirectory (Path.ofNames (names.take (k + 1))))) disk := by
  obtain ⟨name, file, d, after, hfind, htake, heq⟩ := h.exists_resolve_eq
  rw [heq, descend_file hfind hfile, htake]
  rfl

theorem Meets.le {k j : Nat} {found found' : Option Entry} (h : Meets disk root names k found)
    (h' : Meets disk root names j found')
    (hblocks : ∀ e, found' = some e → ¬ e.isDirectory = true) : k ≤ j := by
  refine Nat.le_of_not_lt fun hlt => ?_
  obtain ⟨-, file, d, -, hk, -⟩ := h
  obtain ⟨name, file', d', hname, hj, hfind⟩ := h'
  have hmeets : Meets disk root (names.take k) j found' := by
    refine ⟨name, file', d', ?_, ?_, hfind⟩
    · rw [List.getElem?_take_of_lt hlt, hname]
    · rw [List.take_take, Nat.min_eq_left hlt.le, hj]
  cases found' with
  | none =>
    rw [hmeets.resolve_none] at hk
    cases hk
  | some e =>
    rw [hmeets.resolve_file (hblocks e rfl)] at hk
    cases hk

theorem meets_of_resolve_eq_error {cause : Failure}
    (h : resolve root names disk = .error cause disk) : (∃ e, cause = .refused (.device e)) ∨
      ∃ k, (Meets disk root names k none ∧
          cause = .refused (.notFound (Path.ofNames (names.take (k + 1))))) ∨
        ∃ e, (Meets disk root names k (some e) ∧ ¬ e.isDirectory = true) ∧
          cause = .refused (.notADirectory (Path.ofNames (names.take (k + 1)))) := by
  refine (resolve_eq_error h).imp_right ?_
  rintro ⟨before, name, after, file, d, rfl, hbefore, hcause⟩
  have htake : (before ++ name :: after).take (before.length + 1) = before ++ [name] := by
    rw [List.take_length_add_append, List.take_succ_cons, List.take_zero]
  have hmeets : Meets disk root (before ++ name :: after) before.length (d.find? name) :=
    meets_append hbefore
  refine ⟨before.length, ?_⟩
  rw [htake]
  rcases hcause with ⟨hfind, hcause⟩ | ⟨e, hfind, hfile, hcause⟩
  · exact .inl ⟨hfind ▸ hmeets, hcause⟩
  · exact .inr ⟨e, ⟨hfind ▸ hmeets, hfile⟩, hcause⟩

theorem resolve_eq_notFound_iff {path : String} :
    resolve root names disk = .error (.refused (.notFound path)) disk ↔
      ∃ k, IsLeast {k | Meets disk root names k none} k ∧
        path = Path.ofNames (names.take (k + 1)) := by
  constructor
  · intro h
    rcases meets_of_resolve_eq_error h with ⟨e, he⟩ | ⟨k, ⟨hk, hcause⟩ | ⟨e, -, hcause⟩⟩
    · cases he
    · cases hcause
      exact ⟨k, ⟨hk, fun j hj => hk.le hj nofun⟩, rfl⟩
    · cases hcause
  · rintro ⟨k, hk, rfl⟩
    exact hk.1.resolve_none

theorem resolve_eq_notADirectory_iff {path : String} :
    resolve root names disk = .error (.refused (.notADirectory path)) disk ↔
      ∃ k, IsLeast {k | ∃ e, Meets disk root names k (some e) ∧ ¬ e.isDirectory = true} k ∧
        path = Path.ofNames (names.take (k + 1)) := by
  constructor
  · intro h
    rcases meets_of_resolve_eq_error h with ⟨e, he⟩ | ⟨k, ⟨-, hcause⟩ | ⟨e, hk, hcause⟩⟩
    · cases he
    · cases hcause
    · cases hcause
      refine ⟨k, ⟨⟨e, hk⟩, fun j hj => ?_⟩, rfl⟩
      obtain ⟨e', hj, hfile⟩ := hj
      exact hk.1.le hj fun _ heq => Option.some.inj heq ▸ hfile
  · rintro ⟨k, ⟨⟨e, hk, hfile⟩, -⟩, rfl⟩
    exact hk.resolve_file hfile

theorem resolve_ne_broken (root : OpenFile) (names : List String) (disk disk' : Disk) (b : Breach) :
    resolve root names disk ≠ .error (.broken b) disk' := by
  intro h
  rcases resolve_eq_error h with ⟨e, he⟩ | ⟨before, name, after, file, d, -, -, hcause⟩
  · cases he
  · rcases hcause with ⟨-, hcause⟩ | ⟨e, -, -, hcause⟩ <;> cases hcause

/--
**Following names composes.** Whatever the disk holds and whatever faults it shows, to follow names
tries reads and nothing else, and never breaks off. Let now any sectors be unreadable, but none of
them only at times, so that the disk stays the same. Then names in two parts lead to a file and its
table exactly if the first part leads to some file and from there the second part leads to these;
and if the first part fails, both fail with the same cause. What is not found is the path of the
names up to the first one that has no entry where those before it lead, and what is not a directory
the path of the names up to the first one whose entry there is that of a file.
-/
theorem resolution_composes (root : OpenFile) (names : List String) (disk : Disk) :
    (∃ result n, resolve root names disk = answer result (disk.afterReads n) ∧
      ∀ b, result ≠ .error (.broken b)) ∧
    (disk.faults.reads = [] →
      (∃ result, resolve root names disk = answer result disk) ∧
      (∀ after x, resolve root (names ++ after) disk = .ok x disk ↔
        ∃ file d, resolve root names disk = .ok (file, d) disk ∧
          resolve file after disk = .ok x disk) ∧
      (∀ after cause, resolve root names disk = .error cause disk →
        resolve root (names ++ after) disk = .error cause disk) ∧
      (∀ path, resolve root names disk = .error (.refused (.notFound path)) disk ↔
        ∃ k, IsLeast {k | Meets disk root names k none} k ∧
          path = Path.ofNames (names.take (k + 1))) ∧
      ∀ path, resolve root names disk = .error (.refused (.notADirectory path)) disk ↔
        ∃ k, IsLeast {k | ∃ e, Meets disk root names k (some e) ∧ ¬ e.isDirectory = true} k ∧
          path = Path.ofNames (names.take (k + 1))) := by
  refine ⟨?_, fun hfixed => ⟨(readsOnly_resolve root names).exists_answer hfixed,
    fun after x => resolve_append_eq_ok_iff hfixed,
    fun after cause h => resolve_append_of_error h after,
    fun path => resolve_eq_notFound_iff, fun path => resolve_eq_notADirectory_iff⟩⟩
  obtain ⟨m, count, p⟩ := disk
  obtain ⟨result, n, hact⟩ := readsOnly_resolve root names m count p
  refine ⟨result, n, hact, ?_⟩
  rintro b rfl
  exact resolve_ne_broken root names _ _ b hact

/-- A file of one entry, which names the file itself as a directory `d`. -/
def ownParent : OpenFile where
  sector := 0
  header := { Header.empty with byteCount := 32, direct := Header.empty.direct.set 0 1 }

/-- The two sectors of that file, and a third one that cannot be read. -/
def ownParentDisk : Disk where
  medium := ⟨⟨ownParent.header.toSector.toArray ++ ((Entry.named "d" 0 .directory).bytes.toArray
    ++ Array.replicate 96 0)⟩⟩
  count := 3
  faults := { unreadable := (· == 2) }

/-- A directory that contains itself is entered by its own entry, and then a name is missing. -/
theorem resolution_composes_cyclic : ownParentDisk.faults.reads = [] ∧
    resolve ownParent ["d", "x"] ownParentDisk
      = .error (.refused (.notFound "/d/x")) ownParentDisk ∧
    ∃ k, IsLeast {k | Meets ownParentDisk ownParent ["d", "x"] k none} k ∧
      "/d/x" = Path.ofNames (["d", "x"].take (k + 1)) := by
  have hfixed : ownParentDisk.faults.reads = [] := rfl
  obtain ⟨⟨result, hact⟩, -, -, hmissing, -⟩ :=
    (resolution_composes ownParent ["d", "x"] ownParentDisk).2 hfixed
  have hcause : (match resolve ownParent ["d", "x"] ownParentDisk with
      | .ok _ _ => none
      | .error cause _ => some cause) = some (.refused (.notFound "/d/x")) := by decide +kernel
  rw [hact] at hcause
  cases result with
  | ok x => cases hcause
  | error cause =>
    obtain rfl : cause = _ := Option.some.inj hcause
    exact ⟨hfixed, hact, (hmissing _).mp hact⟩

end Directory

end IndexedDisk
