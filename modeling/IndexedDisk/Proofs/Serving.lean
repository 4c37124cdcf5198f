import IndexedDisk.Proofs.Script

/-!
# Disks that serve

What a disk must do for a script to end. `Disk.Delivers` and `Disk.Accepts` ask that the next reads
and the next writes succeed, as many of them as there are sectors, and leave open what comes after;
`Disk.Readable` asks that sectors can be read as often as one likes. Other sectors may fail, or be
missing.

* `Script.play_of_served`: a script ends if what it reads is delivered and what it writes accepted.
* `Script.within_of_play`: a script that ends has stayed on the disk.
-/

namespace IndexedDisk

/-- The sectors that a script reads, in order. -/
def Script.sources : Script → List Nat
  | [] => []
  | .read s :: rest => s :: sources rest
  | .write _ _ :: rest => sources rest

/-- The next reads, as many as there are of these sectors, succeed if they are of them. -/
structure FaultPlan.Yields (p : FaultPlan) (sectors : List Nat) : Prop where
  reads : ∀ b ∈ p.reads.take sectors.length, b = false
  readable : ∀ s ∈ sectors, p.unreadable s = false

/-- The same, on a disk that has the sectors. -/
structure Disk.Delivers (disk : Disk) (sectors : List Nat) : Prop
    extends disk.faults.Yields sectors where
  lt_count : ∀ s ∈ sectors, s < disk.count
  covered : ∀ s ∈ sectors, sectorSize * (s + 1) ≤ disk.medium.size

/-- The disk has these sectors, and they can be read as often as one likes. -/
structure Disk.Readable (disk : Disk) (sectors : List Nat) : Prop where
  reads : ∀ b ∈ disk.faults.reads, b = false
  readable : ∀ s ∈ sectors, disk.faults.unreadable s = false
  lt_count : ∀ s ∈ sectors, s < disk.count
  covered : ∀ s ∈ sectors, sectorSize * (s + 1) ≤ disk.medium.size

/-- The next writes, as many as there are of these sectors, succeed if they are to them. -/
structure Disk.Accepts (disk : Disk) (sectors : List Nat) : Prop where
  lt_count : ∀ s ∈ sectors, s < disk.count
  writable : ∀ s ∈ sectors, disk.faults.unwritable s = false
  writes : ∀ b ∈ disk.faults.writes.take sectors.length, b = false
  budget : ∀ n, disk.faults.budget = some n → sectors.length ≤ n

theorem eq_false_of_take_succ {l : List Bool} {n : Nat}
    (h : ∀ b ∈ l.take (n + 1), b = false) :
    l.headD false = false ∧ ∀ b ∈ l.tail.take n, b = false := by
  cases l with
  | nil => exact ⟨rfl, fun b hb => absurd hb (by simp)⟩
  | cons b l =>
    rw [List.take_succ_cons] at h
    exact ⟨h b (List.mem_cons_self ..), fun c hc => h c (List.mem_cons_of_mem _ hc)⟩

variable {m : Medium} {count : Nat} {p : FaultPlan} {sectors targets : List Nat}

namespace FaultPlan.Yields

theorem sublist (h : p.Yields sectors) (hsub : targets.Sublist sectors) : p.Yields targets where
  reads b hb := h.reads b (List.take_subset_take_left _ hsub.length_le hb)
  readable s hs := h.readable s (hsub.subset hs)

variable {s : Nat} (h : p.Yields (s :: sectors))
include h

theorem readFails : p.readFails s = false := by
  rw [FaultPlan.readFails, (eq_false_of_take_succ h.reads).1,
    h.readable s (List.mem_cons_self ..), Bool.or_false]

theorem afterRead : p.afterRead.Yields sectors where
  reads := (eq_false_of_take_succ h.reads).2
  readable i hi := h.readable i (List.mem_cons_of_mem _ hi)

end FaultPlan.Yields

namespace Disk

namespace Delivers

theorem sublist {disk : Disk} (h : disk.Delivers sectors) (hsub : targets.Sublist sectors) :
    disk.Delivers targets :=
  { toYields := h.toYields.sublist hsub
    lt_count := fun s hs => h.lt_count s (hsub.subset hs)
    covered := fun s hs => h.covered s (hsub.subset hs) }

theorem nil (disk : Disk) : disk.Delivers [] :=
  { reads := nofun, readable := nofun, lt_count := nofun, covered := nofun }

theorem afterRead {s : Nat} (h : Delivers ⟨m, count, p⟩ (s :: sectors)) :
    Delivers ⟨m, count, p.afterRead⟩ sectors :=
  { toYields := h.toYields.afterRead
    lt_count := fun i hi => h.lt_count i (List.mem_cons_of_mem _ hi)
    covered := fun i hi => h.covered i (List.mem_cons_of_mem _ hi) }

theorem afterWrite (h : Delivers ⟨m, count, p⟩ sectors) (s : Nat) (bytes : Sector) :
    Delivers ⟨m.put s bytes, count, p.afterWrite⟩ sectors where
  reads := h.reads
  readable := h.readable
  lt_count := h.lt_count
  covered i hi := by
    refine Nat.le_trans (h.covered i hi) ?_
    rw [Medium.size_put]
    exact Nat.le_max_left ..

end Delivers

theorem Readable.delivers {disk : Disk} (h : disk.Readable sectors) (hsub : targets ⊆ sectors) :
    disk.Delivers targets :=
  { reads := fun b hb => h.reads b (List.mem_of_mem_take hb)
    readable := fun s hs => h.readable s (hsub hs)
    lt_count := fun s hs => h.lt_count s (hsub hs)
    covered := fun s hs => h.covered s (hsub hs) }

theorem readable_default (hlt : ∀ s ∈ sectors, s < count) (hm : sectorSize * count ≤ m.size) :
    Readable ⟨m, count, {}⟩ sectors where
  reads := nofun
  readable _ _ := rfl
  lt_count := hlt
  covered s hs := Script.reaches hm (hlt s hs)

theorem accepts_default (hlt : ∀ s ∈ sectors, s < count) : Accepts ⟨m, count, {}⟩ sectors where
  lt_count := hlt
  writable _ _ := rfl
  writes := by simp
  budget := nofun

namespace Accepts

theorem mono {disk : Disk} (h : disk.Accepts sectors) (hsub : targets ⊆ sectors)
    (hlength : targets.length ≤ sectors.length) : disk.Accepts targets where
  lt_count s hs := h.lt_count s (hsub hs)
  writable s hs := h.writable s (hsub hs)
  writes b hb := h.writes b (List.take_subset_take_left _ hlength hb)
  budget n hn := Nat.le_trans hlength (h.budget n hn)

theorem nil (disk : Disk) : disk.Accepts [] :=
  ⟨nofun, nofun, nofun, fun _ _ => Nat.zero_le _⟩

theorem afterRead (h : Accepts ⟨m, count, p⟩ targets) : Accepts ⟨m, count, p.afterRead⟩ targets :=
  ⟨h.lt_count, h.writable, h.writes, h.budget⟩

variable {s : Nat} (h : Accepts ⟨m, count, p⟩ (s :: targets))
include h

theorem writeFails : p.writeFails s = false := by
  have hbudget : (p.budget == some 0) = false := by
    refine beq_eq_false_iff_ne.mpr fun heq => ?_
    exact absurd (h.budget 0 heq) (Nat.not_succ_le_zero _)
  rw [FaultPlan.writeFails, (eq_false_of_take_succ h.writes).1,
    h.writable s (List.mem_cons_self ..), hbudget]
  rfl

theorem afterWrite (m' : Medium) : Accepts ⟨m', count, p.afterWrite⟩ targets where
  lt_count i hi := h.lt_count i (List.mem_cons_of_mem _ hi)
  writable i hi := h.writable i (List.mem_cons_of_mem _ hi)
  writes := (eq_false_of_take_succ h.writes).2
  budget n hn := by
    obtain ⟨k, hk, rfl⟩ := Option.map_eq_some_iff.mp hn
    have := h.budget k hk
    rw [List.length_cons] at this
    omega

end Accepts

end Disk

namespace Script

variable {script : Script}

theorem mem_sources {s : Nat} : s ∈ script.sources ↔ .read s ∈ script := by
  induction script with
  | nil => exact ⟨nofun, nofun⟩
  | cons t script ih => cases t <;> simp [sources, ih]

theorem sources_append (a b : Script) : (a ++ b).sources = a.sources ++ b.sources := by
  induction a with
  | nil => rfl
  | cons t a ih => cases t <;> simp [sources, ih]

theorem sources_reads (sectors : List Nat) : (reads sectors).sources = sectors := by
  induction sectors with
  | nil => rfl
  | cons s sectors ih => exact congrArg (s :: ·) ih

/-- A script ends if what it reads is delivered and what it writes is accepted. -/
theorem play_of_served (hdeliver : Disk.Delivers ⟨m, count, p⟩ script.sources)
    (haccept : Disk.Accepts ⟨m, count, p⟩ script.targets) :
    script.play ⟨m, count, p⟩ = .ok () ⟨script.medium m, count, script.plan p⟩ := by
  induction script generalizing m p with
  | nil => rfl
  | cons t script ih =>
    simp only [play, bind_apply]
    cases t with
    | read s =>
      rw [run_read hdeliver.readFails (hdeliver.lt_count s (List.mem_cons_self ..))
        (hdeliver.covered s (List.mem_cons_self ..))]
      exact ih hdeliver.afterRead haccept.afterRead
    | write s bytes =>
      rw [run_write haccept.writeFails (haccept.lt_count s (List.mem_cons_self ..))]
      exact ih (hdeliver.afterWrite s bytes) (haccept.afterWrite _)

theorem reads_plan (h : script.sources = []) (p : FaultPlan) :
    (script.plan p).reads = p.reads := by
  induction script generalizing p with
  | nil => rfl
  | cons t script ih =>
    cases t with
    | read s => cases h
    | write s bytes => exact ih h _

theorem within_of_play {u : Unit} {disk : Disk}
    (h : script.play ⟨m, count, p⟩ = .ok u disk) : script.Within count := by
  induction script generalizing m p with
  | nil => exact fun t ht => nomatch ht
  | cons t script ih =>
    simp only [play, bind_apply] at h
    have hlt : t.sector < count := by
      refine Nat.lt_of_not_le fun hge => ?_
      cases t with
      | read s =>
        have hpeek : ∃ e, (⟨m, count, p⟩ : Disk).peek s sectorSize = .error e := by
          unfold Disk.peek
          split
          · exact ⟨_, rfl⟩
          · exact ⟨_, if_pos hge⟩
        obtain ⟨e, hpeek⟩ := hpeek
        simp [Transfer.run, bind_apply, Disk.readSector_apply, hpeek] at h
      | write s bytes =>
        have hwrite : ∃ e, (⟨m, count, p⟩ : Disk).writeError? s sectorSize = some e := by
          unfold Disk.writeError?
          split
          · exact ⟨_, rfl⟩
          · exact ⟨_, if_pos hge⟩
        obtain ⟨e, hwrite⟩ := hwrite
        simp [Transfer.run, Disk.writeSector_apply, hwrite] at h
    intro t' ht'
    rcases List.mem_cons.mp ht' with rfl | ht'
    · exact hlt
    · rcases run_cases t m count p with hrun | ⟨e, q, hrun⟩
      · rw [hrun] at h
        exact ih h t' ht'
      · rw [hrun] at h
        cases h

theorem covered_of_mem_targets {s : Nat} (hs : s ∈ script.targets) (m : Medium) :
    sectorSize * (s + 1) ≤ (script.medium m).size := by
  induction script generalizing m with
  | nil => cases hs
  | cons t script ih =>
    cases t with
    | read t => exact ih hs m
    | write t bytes =>
      rcases List.mem_cons.mp hs with rfl | hs
      · refine Nat.le_trans ?_ (le_size_medium script (m.put s bytes))
        rw [Medium.size_put]
        exact Nat.le_max_right ..
      · exact ih hs _

theorem size_medium_of_covered (h : ∀ s ∈ script.targets, sectorSize * (s + 1) ≤ m.size) :
    (script.medium m).size = m.size := by
  induction script generalizing m with
  | nil => rfl
  | cons t script ih =>
    cases t with
    | read t => exact ih h
    | write t bytes =>
      have hput : (m.put t bytes).size = m.size := by
        rw [Medium.size_put]
        exact Nat.max_eq_left (h t (List.mem_cons_self ..))
      rw [medium_cons, Transfer.medium,
        ih fun s hs => hput.symm ▸ h s (List.mem_cons_of_mem _ hs), hput]

end Script

theorem FaultPlan.Yields.plan {script : Script} (h : p.Yields sectors)
    (hscript : script.sources = []) : (script.plan p).Yields sectors where
  reads := by
    rw [Script.reads_plan hscript]
    exact h.reads
  readable := by
    rw [Script.unreadable_plan]
    exact h.readable

namespace Follows

variable {α : Type} {act : DiskM α} {result : Except Failure α}

theorem eval_of_served {script : Script} (h : Follows m count act script result)
    (hdeliver : Disk.Delivers ⟨m, count, p⟩ script.sources)
    (haccept : Disk.Accepts ⟨m, count, p⟩ script.targets) :
    act ⟨m, count, p⟩ = answer result ⟨script.medium m, count, script.plan p⟩ := by
  rw [h p, bind_apply, Script.play_of_served hdeliver haccept]

theorem eval_of_delivers (h : Follows m count act (Script.reads sectors) result)
    (hdeliver : Disk.Delivers ⟨m, count, p⟩ sectors) :
    act ⟨m, count, p⟩ = answer result ⟨m, count, (Script.reads sectors).plan p⟩ := by
  have heq := h.eval_of_served ((Script.sources_reads sectors).symm ▸ hdeliver)
    ((Script.targets_reads sectors).symm ▸ Disk.Accepts.nil _)
  rwa [Script.medium_reads] at heq

end Follows

end IndexedDisk
