import IndexedDisk.Disk

/-!
# Scripts

A request that runs on a given medium makes a fixed sequence of sector transfers, its *script*,
and then answers. Planned faults do not change the script; they stop it at the first transfer that
fails. `Follows` says this of a request, and the lemmas below compose it along `do` blocks, so that
one derivation serves disks without faults, disks that lose writes and disks that lose reads.

* `play_ok`, `play_error`: what a script has done to the medium when it ends and when it stops.
* `play_of_faultless`: without faults a script on sectors of the disk ends; so it does if all that
  fails are reads of other sectors (`play_of_blind`).
* `Follows.bind`: the scripts of two requests in a row are joined.
* `runOn_bind`: a request that works on a value beside the disk is read as one that does not.
-/

namespace IndexedDisk

/-! ## The medium, sector by sector -/

namespace Medium

/-- The contents of sector `s`, zero where the medium has no bytes. -/
def get (m : Medium) (s : Nat) : Sector := Vector.ofFn fun i => m.byteAt (sectorSize * s + i)

/-- The medium with sector `s` written. -/
def put (m : Medium) (s : Nat) (bytes : Sector) : Medium :=
  m.write (sectorSize * s) bytes.toArray

theorem get_put (m : Medium) (s t : Nat) (bytes : Sector) :
    (m.put s bytes).get t = if t = s then bytes else m.get t := by
  by_cases h : t = s
  · subst h
    rw [if_pos rfl]
    apply Vector.ext
    intro i hi
    simp only [get, put, Vector.getElem_ofFn, byteAt_write]
    rw [if_pos (by simp; omega), Nat.add_sub_cancel_left]
    simp [Array.getD, hi]
  · rw [if_neg h]
    apply Vector.ext
    intro i hi
    simp only [get, put, Vector.getElem_ofFn, byteAt_write]
    rw [if_neg (by simp only [Vector.size_toArray, sectorSize]; omega)]

@[simp] theorem get_put_self (m : Medium) (s : Nat) (bytes : Sector) :
    (m.put s bytes).get s = bytes := by
  rw [get_put, if_pos rfl]

theorem get_put_of_ne (m : Medium) {s t : Nat} (bytes : Sector) (h : t ≠ s) :
    (m.put s bytes).get t = m.get t := by
  rw [get_put, if_neg h]

theorem getElem_get (m : Medium) (s : Nat) {i : Nat} (hi : i < 128) :
    (m.get s)[i] = m.byteAt (sectorSize * s + i) := by
  simp [get]

theorem size_put (m : Medium) (s : Nat) (bytes : Sector) :
    (m.put s bytes).size = max m.size (sectorSize * (s + 1)) := by
  rw [put, size_write _ _ (by simp), Vector.size_toArray]
  simp only [sectorSize]
  omega

theorem sector?_eq_get {m : Medium} {s : Nat} (h : sectorSize * (s + 1) ≤ m.size) :
    m.sector? s = some (m.get s) :=
  sector?_eq_some h

end Medium

/-! ## Fault plans -/

namespace FaultPlan

/-- No read is planned to fail. -/
structure Readable (p : FaultPlan) : Prop where
  reads : ∀ b ∈ p.reads, b = false
  sectors : ∀ s, p.unreadable s = false

/-- Nothing is planned to fail. -/
structure Faultless (p : FaultPlan) : Prop extends Readable p where
  writes : ∀ b ∈ p.writes, b = false
  unwritable : ∀ s, p.unwritable s = false
  budget : p.budget = none
  sync : p.sync = false

theorem headD_false {l : List Bool} (h : ∀ b ∈ l, b = false) : l.headD false = false := by
  cases l with
  | nil => rfl
  | cons b l => exact h b (List.mem_cons_self ..)

namespace Readable

variable {p : FaultPlan}

theorem readFails (h : p.Readable) (s : Nat) : p.readFails s = false := by
  rw [FaultPlan.readFails, headD_false h.reads, h.sectors, Bool.or_false]

theorem afterRead (h : p.Readable) : p.afterRead.Readable :=
  ⟨fun b hb => h.reads b (List.mem_of_mem_tail hb), h.sectors⟩

theorem afterWrite (h : p.Readable) : p.afterWrite.Readable := ⟨h.reads, h.sectors⟩

end Readable

namespace Faultless

variable {p : FaultPlan}

theorem writeFails (h : p.Faultless) (s : Nat) : p.writeFails s = false := by
  rw [FaultPlan.writeFails, headD_false h.writes, h.unwritable, h.budget]
  rfl

theorem afterRead (h : p.Faultless) : p.afterRead.Faultless :=
  { toReadable := h.toReadable.afterRead
    writes := h.writes, unwritable := h.unwritable, budget := h.budget, sync := h.sync }

theorem afterWrite (h : p.Faultless) : p.afterWrite.Faultless :=
  { toReadable := h.toReadable.afterWrite
    writes := fun b hb => h.writes b (List.mem_of_mem_tail hb)
    unwritable := h.unwritable
    budget := by simp [FaultPlan.afterWrite, h.budget]
    sync := h.sync }

end Faultless

/-- Reads of the sectors in `bad` fail, and no other transfer does. -/
structure Blind (p : FaultPlan) (bad : Nat → Bool) : Prop where
  reads : ∀ b ∈ p.reads, b = false
  sectors : p.unreadable = bad
  writes : ∀ b ∈ p.writes, b = false
  unwritable : ∀ s, p.unwritable s = false
  budget : p.budget = none

namespace Blind

variable {p : FaultPlan} {bad : Nat → Bool}

theorem readFails (h : p.Blind bad) {s : Nat} (hs : bad s = false) : p.readFails s = false := by
  rw [FaultPlan.readFails, headD_false h.reads, h.sectors, hs, Bool.or_false]

theorem writeFails (h : p.Blind bad) (s : Nat) : p.writeFails s = false := by
  rw [FaultPlan.writeFails, headD_false h.writes, h.unwritable, h.budget]
  rfl

theorem afterRead (h : p.Blind bad) : p.afterRead.Blind bad :=
  { h with reads := fun b hb => h.reads b (List.mem_of_mem_tail hb) }

theorem afterWrite (h : p.Blind bad) : p.afterWrite.Blind bad :=
  { h with
    writes := fun b hb => h.writes b (List.mem_of_mem_tail hb)
    budget := by simp [FaultPlan.afterWrite, h.budget] }

end Blind

theorem Faultless.blind {p : FaultPlan} (h : p.Faultless) : p.Blind fun _ => false :=
  { h with sectors := funext h.sectors }

theorem blind_default (bad : Nat → Bool) : ({ unreadable := bad } : FaultPlan).Blind bad where
  reads := by simp
  sectors := rfl
  writes := by simp
  unwritable := fun _ => rfl
  budget := rfl

/-- After `n` more writes every write fails. Nothing else does. -/
structure Budgeted (p : FaultPlan) (n : Nat) : Prop extends Readable p where
  writes : ∀ b ∈ p.writes, b = false
  unwritable : ∀ s, p.unwritable s = false
  budget : p.budget = some n

namespace Budgeted

variable {p : FaultPlan} {n : Nat}

theorem writeFails (h : p.Budgeted n) (s : Nat) : p.writeFails s = (n == 0) := by
  rw [FaultPlan.writeFails, headD_false h.writes, h.unwritable, h.budget]
  rfl

theorem afterRead (h : p.Budgeted n) : p.afterRead.Budgeted n :=
  { toReadable := h.toReadable.afterRead
    writes := h.writes, unwritable := h.unwritable, budget := h.budget }

theorem afterWrite (h : p.Budgeted (n + 1)) : p.afterWrite.Budgeted n :=
  { toReadable := h.toReadable.afterWrite
    writes := fun b hb => h.writes b (List.mem_of_mem_tail hb)
    unwritable := h.unwritable
    budget := by simp [FaultPlan.afterWrite, h.budget] }

end Budgeted

theorem budgeted_default (n : Nat) : ({ budget := some n } : FaultPlan).Budgeted n where
  reads := by simp
  sectors := fun _ => rfl
  writes := by simp
  unwritable := fun _ => rfl
  budget := rfl

theorem faultless_default : ({} : FaultPlan).Faultless where
  reads := by simp
  sectors := fun _ => rfl
  writes := by simp
  unwritable := fun _ => rfl
  budget := rfl
  sync := rfl

end FaultPlan

/-! ## Transfers and scripts -/

/-- One transfer that a request makes. -/
inductive Transfer where
  | read (s : Nat)
  | write (s : Nat) (bytes : Sector)

namespace Transfer

/-- The sector of a transfer. -/
def sector : Transfer → Nat
  | read s => s
  | write s _ => s

/-- The transfer on its own, without regard to what it delivers. -/
def run : Transfer → DiskM Unit
  | read s => do let _ ← Disk.readSector s
  | write s bytes => Disk.writeSector s bytes

/-- The medium once a transfer is done. -/
def medium (m : Medium) : Transfer → Medium
  | read _ => m
  | write s bytes => m.put s bytes

/-- The fault plan once a transfer is done. -/
def plan (p : FaultPlan) : Transfer → FaultPlan
  | read _ => p.afterRead
  | write _ _ => p.afterWrite

end Transfer

/-- The transfers that a request makes, in order. -/
abbrev Script : Type := List Transfer

namespace Script

/-- Makes the transfers of a script. -/
def play : Script → DiskM Unit
  | [] => pure ()
  | t :: rest => do
    t.run
    play rest

/-- The medium once a script is done. -/
def medium (m : Medium) (script : Script) : Medium := script.foldl Transfer.medium m

/-- The fault plan once a script is done. -/
def plan (p : FaultPlan) (script : Script) : FaultPlan := script.foldl Transfer.plan p

/-- All sectors of a script are among the first `count`. -/
def Within (script : Script) (count : Nat) : Prop := ∀ t ∈ script, t.sector < count

/-- The reads of the given sectors. -/
def reads (sectors : List Nat) : Script := sectors.map .read

/-- The sectors that a script writes, in order. -/
def targets : Script → List Nat
  | [] => []
  | .read _ :: rest => targets rest
  | .write s _ :: rest => s :: targets rest

end Script

/-! ## Requests in steps -/

theorem bind_apply {ε σ α β : Type} (x : EStateM ε σ α) (f : α → EStateM ε σ β) (s : σ) :
    (x >>= f) s = match x s with
      | .ok a s => f a s
      | .error e s => .error e s := rfl

theorem exists_of_bind {ε σ α β : Type} {x : EStateM ε σ α} {f : α → EStateM ε σ β} {s s' : σ}
    {b : β} (h : (x >>= f) s = .ok b s') : ∃ a t, x s = .ok a t ∧ f a t = .ok b s' := by
  rw [bind_apply] at h
  cases hx : x s with
  | ok a t =>
    rw [hx] at h
    exact ⟨a, t, rfl, h⟩
  | error e t =>
    rw [hx] at h
    cases h

/-- A request that only answers. -/
def answer {σ α : Type} : Except Failure α → EStateM Failure σ α
  | .ok a => pure a
  | .error cause => throw cause

namespace Disk

theorem eq_ok_of_runOn {ρ α : Type} {v v' : ρ} {act : Disk.WithM ρ α} {a : α}
    {disk disk' : Disk} (h : runOn v act disk = .ok (a, v') disk') :
    act ⟨disk, v⟩ = .ok a ⟨disk', v'⟩ := by
  unfold runOn at h
  split at h
  · rename_i heq
    cases h
    exact heq
  · cases h

theorem exists_of_runOn_error {ρ α : Type} {v : ρ} {act : Disk.WithM ρ α} {cause : Failure}
    {disk disk' : Disk} (h : runOn v act disk = .error cause disk') :
    ∃ v', act ⟨disk, v⟩ = .error cause ⟨disk', v'⟩ := by
  unfold runOn at h
  split at h
  · cases h
  · rename_i heq
    cases h
    exact ⟨_, heq⟩

theorem readSector_apply (s : Nat) (m : Medium) (count : Nat) (p : FaultPlan) :
    readSector s ⟨m, count, p⟩ = match (⟨m, count, p⟩ : Disk).peek s sectorSize with
      | .ok bytes => .ok bytes ⟨m, count, p.afterRead⟩
      | .error e => .error (.refused (.device e)) ⟨m, count, p.afterRead⟩ := by
  unfold readSector
  split <;> simp_all

theorem writeSector_apply (s : Nat) (bytes : Sector) (m : Medium) (count : Nat) (p : FaultPlan) :
    writeSector s bytes ⟨m, count, p⟩ = match (⟨m, count, p⟩ : Disk).writeError? s sectorSize with
      | none => .ok () ⟨m.put s bytes, count, p.afterWrite⟩
      | some e => .error (.refused (.device e)) ⟨m, count, p.afterFailedWrite⟩ := by
  have hsize : bytes.toArray.size = sectorSize := by simp
  simp only [writeSector, liftM, monadLift, MonadLift.monadLift, write, hsize]
  cases (⟨m, count, p⟩ : Disk).writeError? s sectorSize <;> rfl

theorem peek_eq_ok {m : Medium} {count s : Nat} {p : FaultPlan} {bytes : Sector}
    (h : (⟨m, count, p⟩ : Disk).peek s sectorSize = .ok bytes) : bytes = m.get s := by
  unfold peek at h
  split at h
  · cases h
  split at h
  · cases h
  split at h
  · cases h
  split at h
  · rename_i b hb
    cases h
    unfold Medium.sector? at hb
    split at hb
    · exact (Option.some.inj hb).symm
    · cases hb
  · cases h

end Disk

namespace Script

/-! ## What a script does -/

@[simp] theorem medium_nil (m : Medium) : medium m [] = m := rfl

@[simp] theorem medium_cons (m : Medium) (t : Transfer) (script : Script) :
    medium m (t :: script) = medium (t.medium m) script := rfl

theorem medium_append (m : Medium) (a b : Script) :
    medium m (a ++ b) = medium (medium m a) b :=
  List.foldl_append ..

theorem play_append (a b : Script) :
    play (a ++ b) = (do play a; play b) := by
  induction a with
  | nil => rfl
  | cons t a ih =>
    funext disk
    simp only [List.cons_append, play, bind_apply, ih]
    cases t.run disk <;> rfl

theorem run_cases (t : Transfer) (m : Medium) (count : Nat) (p : FaultPlan) :
    t.run ⟨m, count, p⟩ = .ok () ⟨t.medium m, count, t.plan p⟩ ∨
      ∃ e p', t.run ⟨m, count, p⟩ = .error (.refused (.device e)) ⟨m, count, p'⟩ := by
  cases t with
  | read s =>
    simp only [Transfer.run, bind_apply, Disk.readSector_apply]
    cases (⟨m, count, p⟩ : Disk).peek s sectorSize with
    | ok bytes => exact Or.inl rfl
    | error e => exact Or.inr ⟨e, _, rfl⟩
  | write s bytes =>
    simp only [Transfer.run, Disk.writeSector_apply]
    cases (⟨m, count, p⟩ : Disk).writeError? s sectorSize with
    | none => exact Or.inl rfl
    | some e => exact Or.inr ⟨e, _, rfl⟩

theorem play_ok {script : Script} {m : Medium} {count : Nat} {p : FaultPlan} {u : Unit}
    {disk : Disk} (h : play script ⟨m, count, p⟩ = .ok u disk) :
    disk = ⟨medium m script, count, plan p script⟩ := by
  induction script generalizing m p with
  | nil => cases h; rfl
  | cons t script ih =>
    simp only [play, bind_apply] at h
    rcases run_cases t m count p with hrun | ⟨e, p', hrun⟩
    · rw [hrun] at h
      exact ih h
    · rw [hrun] at h
      cases h

/-- A script that stops has done a part of its transfers, and the disk is what stops it. -/
theorem play_error {script : Script} {m : Medium} {count : Nat} {p : FaultPlan} {cause : Failure}
    {disk : Disk} (h : play script ⟨m, count, p⟩ = .error cause disk) :
    ∃ k < script.length, ∃ e p', cause = .refused (.device e) ∧
      disk = ⟨medium m (script.take k), count, p'⟩ := by
  induction script generalizing m p with
  | nil => cases h
  | cons t script ih =>
    simp only [play, bind_apply] at h
    rcases run_cases t m count p with hrun | ⟨e, p', hrun⟩
    · rw [hrun] at h
      obtain ⟨k, hk, e, p', rfl, rfl⟩ := ih h
      exact ⟨k + 1, by simpa using hk, e, p', rfl, rfl⟩
    · rw [hrun] at h
      cases h
      exact ⟨0, by simp, e, p', rfl, rfl⟩

theorem reaches {m : Medium} {s n : Nat} (hm : sectorSize * n ≤ m.size) (hs : s < n) :
    sectorSize * (s + 1) ≤ m.size :=
  Nat.le_trans (Nat.mul_le_mul_left _ hs) hm

theorem run_read {m : Medium} {count s : Nat} {p : FaultPlan} (hp : p.readFails s = false)
    (hs : s < count) (hsize : sectorSize * (s + 1) ≤ m.size) :
    (Transfer.read s).run ⟨m, count, p⟩ = .ok () ⟨m, count, p.afterRead⟩ := by
  have hpeek : (⟨m, count, p⟩ : Disk).peek s sectorSize = .ok (m.get s) := by
    simp [Disk.peek, hp, Medium.sector?_eq_get hsize, Nat.not_le.mpr hs]
  simp only [Transfer.run, bind_apply, Disk.readSector_apply, hpeek]
  rfl

theorem run_write {m : Medium} {count s : Nat} {p : FaultPlan} (hp : p.writeFails s = false)
    (hs : s < count) (bytes : Sector) : (Transfer.write s bytes).run ⟨m, count, p⟩
      = .ok () ⟨m.put s bytes, count, p.afterWrite⟩ := by
  have hwrite : (⟨m, count, p⟩ : Disk).writeError? s sectorSize = none := by
    simp [Disk.writeError?, hp, Nat.not_le.mpr hs]
  simp only [Transfer.run, Disk.writeSector_apply, hwrite]

theorem run_write_error {m : Medium} {count s : Nat} {p : FaultPlan} (hp : p.writeFails s = true)
    (bytes : Sector) : (Transfer.write s bytes).run ⟨m, count, p⟩
      = .error (.refused (.device .writeFault)) ⟨m, count, p.afterFailedWrite⟩ := by
  have hwrite : (⟨m, count, p⟩ : Disk).writeError? s sectorSize = some .writeFault := by
    simp [Disk.writeError?, hp]
  simp only [Transfer.run, Disk.writeSector_apply, hwrite]

theorem play_of_blind {bad : Nat → Bool} {script : Script} {m : Medium} {count : Nat}
    {p : FaultPlan} (hp : p.Blind bad) (hreads : ∀ s, .read s ∈ script → bad s = false)
    (hscript : script.Within count) (hm : sectorSize * count ≤ m.size) :
    play script ⟨m, count, p⟩ = .ok () ⟨medium m script, count, plan p script⟩ := by
  induction script generalizing m p with
  | nil => rfl
  | cons t script ih =>
    have ht : t.sector < count := hscript t (List.mem_cons_self ..)
    have hrest : Within script count := fun t h => hscript t (List.mem_cons_of_mem _ h)
    have hreads' : ∀ s, .read s ∈ script → bad s = false := fun s h =>
      hreads s (List.mem_cons_of_mem _ h)
    simp only [play, bind_apply]
    cases t with
    | read s =>
      rw [run_read (s := s) (hp.readFails (hreads s (List.mem_cons_self ..))) ht (reaches hm ht)]
      exact ih hp.afterRead hreads' hrest hm
    | write s bytes =>
      rw [run_write (s := s) (hp.writeFails s) ht]
      refine ih hp.afterWrite hreads' hrest ?_
      rw [Medium.size_put]
      omega

theorem play_of_faultless {script : Script} {m : Medium} {count : Nat} {p : FaultPlan}
    (hp : p.Faultless) (hscript : script.Within count) (hm : sectorSize * count ≤ m.size) :
    play script ⟨m, count, p⟩ = .ok () ⟨medium m script, count, plan p script⟩ :=
  play_of_blind hp.blind (fun _ _ => rfl) hscript hm

theorem play_error_of_read {script : Script} {s : Nat} {p : FaultPlan} (m : Medium) (count : Nat)
    (hs : .read s ∈ script) (hp : p.unreadable s = true) :
    ∃ cause disk, play script ⟨m, count, p⟩ = .error cause disk := by
  induction script generalizing m p with
  | nil => cases hs
  | cons t script ih =>
    simp only [play, bind_apply]
    rcases run_cases t m count p with hrun | ⟨e, p', hrun⟩
    · rw [hrun]
      rcases List.mem_cons.mp hs with rfl | hs
      · have hfails : p.readFails s = true := by rw [FaultPlan.readFails, hp, Bool.or_true]
        simp [Transfer.run, bind_apply, Disk.readSector_apply, Disk.peek, hfails] at hrun
      · refine ih _ hs ?_
        cases t <;> exact hp
    · rw [hrun]
      exact ⟨_, _, rfl⟩

theorem play_of_budgeted {script : Script} {m : Medium} {count n : Nat} {p : FaultPlan}
    (hp : p.Budgeted n) (hn : n < (targets script).length) (hscript : script.Within count)
    (hm : sectorSize * count ≤ m.size) : ∃ k q, (targets (script.take k)).length = n ∧
      play script ⟨m, count, p⟩ = .error (.refused (.device .writeFault))
        ⟨medium m (script.take k), count, q⟩ := by
  induction script generalizing m n p with
  | nil => cases hn
  | cons t script ih =>
    have ht : t.sector < count := hscript t (List.mem_cons_self ..)
    have hrest : Within script count := fun t h => hscript t (List.mem_cons_of_mem _ h)
    simp only [play, bind_apply]
    cases t with
    | read s =>
      rw [run_read (s := s) (hp.readFails s) ht (reaches hm ht)]
      obtain ⟨k, q, hk, hplay⟩ := ih hp.afterRead hn hrest hm
      exact ⟨k + 1, q, hk, hplay⟩
    | write s bytes =>
      cases n with
      | zero =>
        rw [run_write_error (hp.writeFails s)]
        exact ⟨0, _, rfl, rfl⟩
      | succ n =>
        rw [run_write (s := s) (hp.writeFails s) ht]
        have hsize : sectorSize * count ≤ (m.put s bytes).size := by
          rw [Medium.size_put]
          omega
        obtain ⟨k, q, hk, hplay⟩ := ih hp.afterWrite (Nat.lt_of_succ_lt_succ hn) hrest hsize
        exact ⟨k + 1, q, congrArg Nat.succ hk, hplay⟩

theorem plan_preserves {P : FaultPlan → Prop} (hread : ∀ p, P p → P p.afterRead)
    (hwrite : ∀ p, P p → P p.afterWrite) {p : FaultPlan} (hp : P p) (script : Script) :
    P (plan p script) := by
  induction script generalizing p with
  | nil => exact hp
  | cons t script ih =>
    cases t with
    | read s => exact ih (hread p hp)
    | write s bytes => exact ih (hwrite p hp)

@[simp] theorem unreadable_plan (p : FaultPlan) (script : Script) :
    (plan p script).unreadable = p.unreadable :=
  plan_preserves (P := (·.unreadable = p.unreadable)) (fun _ h => h) (fun _ h => h) rfl script

theorem plan_blind {p : FaultPlan} {bad : Nat → Bool} (hp : p.Blind bad) (script : Script) :
    (plan p script).Blind bad :=
  plan_preserves (P := (·.Blind bad)) (fun _ h => h.afterRead) (fun _ h => h.afterWrite) hp script

theorem plan_faultless {p : FaultPlan} (hp : p.Faultless) (script : Script) :
    (plan p script).Faultless :=
  plan_preserves (P := FaultPlan.Faultless) (fun _ h => h.afterRead) (fun _ h => h.afterWrite) hp
    script

theorem le_size_medium (script : Script) (m : Medium) : m.size ≤ (medium m script).size := by
  induction script generalizing m with
  | nil => exact Nat.le_refl _
  | cons t script ih =>
    cases t with
    | read s => exact ih m
    | write s bytes =>
      refine Nat.le_trans ?_ (ih (m.put s bytes))
      rw [Medium.size_put]
      exact Nat.le_max_left ..

theorem size_medium {script : Script} {m : Medium} {count : Nat}
    (hscript : script.Within count) (hm : sectorSize * count ≤ m.size) :
    (medium m script).size = m.size := by
  induction script generalizing m with
  | nil => rfl
  | cons t script ih =>
    have ht : t.sector < count := hscript t (List.mem_cons_self ..)
    have hrest : Within script count := fun t h => hscript t (List.mem_cons_of_mem _ h)
    cases t with
    | read s => exact ih hrest hm
    | write s bytes =>
      have hs : s < count := ht
      have hsize : (m.put s bytes).size = m.size := by
        rw [Medium.size_put]
        simp only [sectorSize] at *
        omega
      rw [medium_cons, Transfer.medium, ih hrest (by rw [hsize]; exact hm), hsize]

theorem get_medium_of_not_mem {script : Script} {s : Nat} (h : s ∉ targets script) (m : Medium) :
    (medium m script).get s = m.get s := by
  induction script generalizing m with
  | nil => rfl
  | cons t script ih =>
    cases t with
    | read s => exact ih h m
    | write t bytes =>
      rw [targets, List.mem_cons, not_or] at h
      rw [medium_cons, ih h.2, Transfer.medium, Medium.get_put_of_ne _ _ h.1]

theorem mem_targets {script : Script} {s : Nat} {bytes : Sector}
    (h : .write s bytes ∈ script) : s ∈ targets script := by
  induction script with
  | nil => cases h
  | cons t script ih =>
    rcases List.mem_cons.mp h with rfl | hrest
    · exact List.mem_cons_self ..
    · cases t with
      | read t => exact ih hrest
      | write t bytes' => exact List.mem_cons_of_mem _ (ih hrest)

theorem exists_write_of_mem_targets {script : Script} {s : Nat} (h : s ∈ targets script) :
    ∃ bytes, .write s bytes ∈ script := by
  induction script with
  | nil => cases h
  | cons t script ih =>
    cases t with
    | read t =>
      obtain ⟨bytes, hbytes⟩ := ih h
      exact ⟨bytes, List.mem_cons_of_mem _ hbytes⟩
    | write t bytes =>
      rcases List.mem_cons.mp h with rfl | h
      · exact ⟨bytes, List.mem_cons_self ..⟩
      · obtain ⟨bytes', hbytes⟩ := ih h
        exact ⟨bytes', List.mem_cons_of_mem _ hbytes⟩

theorem get_medium_of_mem {script : Script} (hnodup : (targets script).Nodup) {s : Nat}
    {bytes : Sector} (h : .write s bytes ∈ script) (m : Medium) :
    (medium m script).get s = bytes := by
  induction script generalizing m with
  | nil => cases h
  | cons t script ih =>
    cases t with
    | read t =>
      rcases List.mem_cons.mp h with heq | hrest
      · cases heq
      · exact ih hnodup hrest m
    | write t bytes' =>
      obtain ⟨hnot, hnodup⟩ := List.nodup_cons.mp hnodup
      rcases List.mem_cons.mp h with heq | hrest
      · cases heq
        rw [medium_cons, get_medium_of_not_mem hnot, Transfer.medium, Medium.get_put_self]
      · exact ih hnodup hrest _

theorem targets_append (a b : Script) : targets (a ++ b) = targets a ++ targets b := by
  induction a with
  | nil => rfl
  | cons t a ih => cases t <;> simp [targets, ih]

theorem targets_take_subset (script : Script) (k : Nat) :
    targets (script.take k) ⊆ targets script := by
  intro s hs
  rw [← List.take_append_drop k script, targets_append]
  exact List.mem_append_left _ hs

/-- A part of a script leaves in a sector that is written at most once what was there, or what is
there in the end. -/
theorem get_medium_take {script : Script} {i : Nat} (h : (targets script).count i ≤ 1) (m : Medium)
    (k : Nat) : (medium m (script.take k)).get i = m.get i ∨
      (medium m (script.take k)).get i = (medium m script).get i := by
  by_cases hi : i ∈ targets (script.take k)
  · right
    have hdrop : i ∉ targets (script.drop k) := by
      intro hi'
      rw [← List.take_append_drop k script, targets_append, List.count_append] at h
      have := List.count_pos_iff.mpr hi
      have := List.count_pos_iff.mpr hi'
      omega
    rw [← get_medium_of_not_mem hdrop (medium m (script.take k)), ← medium_append,
      List.take_append_drop]
  · exact Or.inl (get_medium_of_not_mem hi m)

/-- Of two scripts in a row a part either has nothing of the second or all of the first. -/
theorem get_medium_take_append (a b : Script) (m : Medium) (k : Nat) :
    (∀ i ∉ targets a, (medium m ((a ++ b).take k)).get i = m.get i) ∨
      ∀ i ∉ targets b, (medium m ((a ++ b).take k)).get i = (medium m (a ++ b)).get i := by
  rw [List.take_append]
  by_cases hk : k ≤ a.length
  · refine Or.inl fun i hi => ?_
    rw [Nat.sub_eq_zero_of_le hk, List.take_zero, List.append_nil]
    exact get_medium_of_not_mem (fun h => hi (targets_take_subset a k h)) m
  · refine Or.inr fun i hi => ?_
    rw [List.take_of_length_le (Nat.le_of_not_le hk), medium_append, medium_append,
      get_medium_of_not_mem (fun h => hi (targets_take_subset b _ h)), get_medium_of_not_mem hi]

theorem medium_of_targets_eq_nil {script : Script} (h : targets script = []) (m : Medium) :
    medium m script = m := by
  induction script with
  | nil => rfl
  | cons t script ih =>
    cases t with
    | read s => exact ih h
    | write s bytes => cases h

theorem medium_take_append {a b : Script} {k : Nat}
    (h : (targets ((a ++ b).take k)).length = (targets a).length) (m : Medium) :
    medium m ((a ++ b).take k) = medium m a := by
  rw [List.take_append] at h ⊢
  by_cases hk : k ≤ a.length
  · rw [Nat.sub_eq_zero_of_le hk, List.take_zero, List.append_nil] at h ⊢
    have hdrop : targets (a.drop k) = [] := by
      have hsplit := congrArg (List.length ∘ targets) (List.take_append_drop k a)
      simp only [Function.comp_apply, targets_append, List.length_append] at hsplit
      exact List.eq_nil_of_length_eq_zero (by omega)
    calc medium m (a.take k) = medium (medium m (a.take k)) (a.drop k) :=
          (medium_of_targets_eq_nil hdrop _).symm
      _ = medium m a := by rw [← medium_append, List.take_append_drop]
  · rw [List.take_of_length_le (Nat.le_of_not_le hk), targets_append, List.length_append] at h
    have hrest : targets (b.take (k - a.length)) = [] :=
      List.eq_nil_of_length_eq_zero (by omega)
    rw [List.take_of_length_le (Nat.le_of_not_le hk), medium_append,
      medium_of_targets_eq_nil hrest]

theorem medium_reads (m : Medium) (sectors : List Nat) : medium m (reads sectors) = m := by
  induction sectors with
  | nil => rfl
  | cons s sectors ih => exact ih

theorem targets_reads (sectors : List Nat) : targets (reads sectors) = [] := by
  induction sectors with
  | nil => rfl
  | cons s sectors ih => exact ih

theorem reads_take (sectors : List Nat) (k : Nat) :
    reads (sectors.take k) = (reads sectors).take k :=
  List.map_take

theorem reads_append (a b : List Nat) : reads (a ++ b) = reads a ++ reads b := List.map_append ..

theorem within_append {a b : Script} {count : Nat} :
    Within (a ++ b) count ↔ a.Within count ∧ b.Within count := by
  simp [Within, or_imp, forall_and]

theorem within_reads {sectors : List Nat} {count : Nat} :
    (reads sectors).Within count ↔ ∀ s ∈ sectors, s < count := by
  simp [Within, reads, Transfer.sector]

end Script

/-! ## Requests that follow a script -/

/--
On a medium of `count` sectors the request makes the transfers of `script` and then answers with
`result`, unless a transfer fails first. This holds whatever faults are planned.
-/
def Follows {α : Type} (m : Medium) (count : Nat) (act : DiskM α) (script : Script)
    (result : Except Failure α) : Prop :=
  ∀ p, act ⟨m, count, p⟩ = (do script.play; answer result) ⟨m, count, p⟩

namespace Follows

variable {α β ρ : Type} {m : Medium} {count : Nat} {act : DiskM α} {script : Script}
  {result : Except Failure α}

/-- A request that follows a script either does all of it or stops at a failed transfer. -/
theorem cases (h : Follows m count act script result) (p : FaultPlan) :
    act ⟨m, count, p⟩ = answer result ⟨script.medium m, count, script.plan p⟩ ∨
      ∃ k < script.length, ∃ e p', act ⟨m, count, p⟩
        = .error (.refused (.device e)) ⟨Script.medium m (script.take k), count, p'⟩ := by
  rw [h p, bind_apply]
  cases hplay : script.play ⟨m, count, p⟩ with
  | ok u disk =>
    left
    rw [Script.play_ok hplay]
  | error cause disk =>
    right
    obtain ⟨k, hk, e, p', rfl, rfl⟩ := Script.play_error hplay
    exact ⟨k, hk, e, p', rfl⟩

theorem play_of_ok (h : Follows m count act script result) {p : FaultPlan} {a : α} {disk : Disk}
    (hact : act ⟨m, count, p⟩ = .ok a disk) :
    result = .ok a ∧ script.play ⟨m, count, p⟩ = .ok () disk := by
  rw [h p] at hact
  obtain ⟨u, disk', hplay, hanswer⟩ := exists_of_bind hact
  cases result with
  | error cause => cases hanswer
  | ok b =>
    cases hanswer
    exact ⟨rfl, hplay⟩

theorem eval (h : Follows m count act script result) {p : FaultPlan} (hp : p.Faultless)
    (hscript : script.Within count) (hm : sectorSize * count ≤ m.size) :
    act ⟨m, count, p⟩ = answer result ⟨script.medium m, count, script.plan p⟩ := by
  rw [h p, bind_apply, Script.play_of_faultless hp hscript hm]

theorem pure (a : α) : Follows m count (pure a) [] (.ok a) := fun _ => rfl

theorem refuse (cause : Refusal) :
    Follows m count (refuse cause : DiskM α) [] (.error (.refused cause)) := fun _ => rfl

theorem breach (cause : Breach) :
    Follows m count (breach cause : DiskM α) [] (.error (.broken cause)) := fun _ => rfl

theorem sectorCount : Follows m count Disk.sectorCount [] (.ok count) := fun _ => rfl

theorem readSector (s : Nat) : Follows m count (Disk.readSector s) [.read s] (.ok (m.get s)) := by
  intro p
  simp only [Script.play, Transfer.run, bind_apply, Disk.readSector_apply]
  cases hpeek : (⟨m, count, p⟩ : Disk).peek s sectorSize with
  | ok bytes =>
    rw [Disk.peek_eq_ok hpeek]
    rfl
  | error e => rfl

theorem writeSector (s : Nat) (bytes : Sector) :
    Follows m count (Disk.writeSector s bytes) [.write s bytes] (.ok ()) := by
  intro p
  simp only [Script.play, Transfer.run, bind_apply]
  cases Disk.writeSector s bytes ⟨m, count, p⟩ <;> rfl

theorem bind {f : α → DiskM β} {a : α} {script' : Script} {result' : Except Failure β}
    (h : Follows m count act script (.ok a))
    (h' : Follows (script.medium m) count (f a) script' result') :
    Follows m count (act >>= f) (script ++ script') result' := by
  intro p
  simp only [bind_apply, h p, Script.play_append]
  cases hplay : script.play ⟨m, count, p⟩ with
  | ok u disk =>
    rw [Script.play_ok hplay]
    exact h' (script.plan p)
  | error cause disk => rfl

theorem bind_reads {f : α → DiskM β} {a : α} {sectors : List Nat} {script' : Script}
    {result' : Except Failure β} (h : Follows m count act (Script.reads sectors) (.ok a))
    (h' : Follows m count (f a) script' result') :
    Follows m count (act >>= f) (Script.reads sectors ++ script') result' :=
  h.bind (by rwa [Script.medium_reads])

theorem bind_error {f : α → DiskM β} {cause : Failure}
    (h : Follows m count act script (.error cause)) :
    Follows m count (act >>= f) script (.error cause) := by
  intro p
  simp only [bind_apply, h p]
  cases script.play ⟨m, count, p⟩ <;> rfl

theorem of_script {script' : Script} (h : Follows m count act script result)
    (hs : script = script') : Follows m count act script' result :=
  hs ▸ h

theorem bind_nil {f : α → DiskM β} {a : α} {result' : Except Failure β}
    (h : Follows m count act script (.ok a))
    (h' : Follows (script.medium m) count (f a) [] result') :
    Follows m count (act >>= f) script result' :=
  (h.bind h').of_script (List.append_nil script)

theorem map {f : α → β} {a : α} (h : Follows m count act script (.ok a)) :
    Follows m count (do return f (← act)) script (.ok (f a)) :=
  bind_nil (f := fun a => Pure.pure (f a)) h (pure (f a))

theorem of_ok {x : Except Breach α} {a : α} (h : x = .ok a) :
    Follows m count (liftM x) [] (.ok a) := by
  subst h
  exact pure a

theorem of_ok_refusal {x : Except Refusal α} {a : α} (h : x = .ok a) :
    Follows m count (liftM x) [] (.ok a) := by
  subst h
  exact pure a

theorem ok_bind {x : Except Breach α} {f : α → DiskM β} {a : α} {result' : Except Failure β}
    (h : x = .ok a) (h' : Follows m count (f a) script result') :
    Follows m count (liftM x >>= f) script result' :=
  (of_ok h).bind h'

theorem of_error {x : Except Breach α} {cause : Breach} (h : x = .error cause) :
    Follows m count (liftM x : DiskM α) [] (.error (.broken cause)) := by
  subst h
  exact breach cause

theorem of_error_refusal {x : Except Refusal α} {cause : Refusal} (h : x = .error cause) :
    Follows m count (liftM x : DiskM α) [] (.error (.refused cause)) := by
  subst h
  exact refuse cause

/-! ### Requests that work on a value beside the disk -/

variable {v v' : ρ}

theorem runOn_pure (a : α) (v : ρ) :
    Follows m count (Disk.runOn v (Pure.pure a)) [] (.ok (a, v)) := fun _ => rfl

theorem runOn_lift {a : α} (h : Follows m count act script (.ok a)) :
    Follows m count (Disk.runOn v (liftM act)) script (.ok (a, v)) := by
  intro p
  simp only [Disk.runOn, liftM, monadLift, MonadLift.monadLift, h p, bind_apply]
  cases script.play ⟨m, count, p⟩ <;> rfl

theorem runOn_bind_eq (v : ρ) (act : Disk.WithM ρ α) (f : α → Disk.WithM ρ β) :
    Disk.runOn v (act >>= f) = (do
      let x ← Disk.runOn v act
      Disk.runOn x.2 (f x.1)) := by
  funext disk
  simp only [Disk.runOn, bind_apply]
  cases act ⟨disk, v⟩ <;> rfl

theorem runOn_bind {act : Disk.WithM ρ α} {f : α → Disk.WithM ρ β} {a : α} {script' : Script}
    {result' : Except Failure (β × ρ)} (h : Follows m count (Disk.runOn v act) script (.ok (a, v')))
    (h' : Follows (script.medium m) count (Disk.runOn v' (f a)) script' result') :
    Follows m count (Disk.runOn v (act >>= f)) (script ++ script') result' := by
  rw [runOn_bind_eq]
  exact h.bind h'

theorem runOn_bind_error {act : Disk.WithM ρ α} {f : α → Disk.WithM ρ β} {cause : Failure}
    (h : Follows m count (Disk.runOn v act) script (.error cause)) :
    Follows m count (Disk.runOn v (act >>= f)) script (.error cause) := by
  rw [runOn_bind_eq]
  exact h.bind_error

theorem runOn_ok_bind {x : Except Breach α} {f : α → Disk.WithM ρ β} {a : α}
    {result' : Except Failure (β × ρ)} (h : x = .ok a)
    (h' : Follows m count (Disk.runOn v (f a)) script result') :
    Follows m count (Disk.runOn v (liftM x >>= f)) script result' := by
  subst h
  exact h'

end Follows

end IndexedDisk
