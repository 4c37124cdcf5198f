import IndexedDisk.FileDisk
import IndexedDisk.Proofs.Script

/-!
# Disks on files

A disk on a file is an array of sectors. Whatever is asked of it, one call after the other and on a
file of any length, a call that it cannot do is refused and leaves the bytes of the file alone, a
write replaces one sector, and a read delivers what was written to the sector last. The place in the
file, which every transfer moves, shows in none of this.

* `FileDisk.read_eq`, `FileDisk.write_eq`: what becomes of the file and of its place.
* `exists_effect`: what one call does to a disk on a file.
* `Recalls.respond`, `Recalls.run`: the medium holds what is left of the writes that were done.
* `disks_run`: a disk on the medium of the file gives the same replies.
* `FileDisk.build_eq`: what becomes of a file that a disk is made on.
* `sectors_are_kept`: all of this together.
-/

namespace IndexedDisk

/-! ## Transfers of a disk on a file -/

theorem ByteFile.readExact_sector (m : Medium) (i : Nat) :
    readExact sectorSize ⟨m, sectorSize * i⟩ =
      if m.size < sectorSize * (i + 1) then .error .endOfMedium ⟨m, max (sectorSize * i) m.size⟩
      else .ok (m.get i).toArray ⟨m, sectorSize * (i + 1)⟩ := by
  have hend : sectorSize * (i + 1) = sectorSize * i + sectorSize := rfl
  rw [readExact, hend, Medium.get, Vector.toArray_ofFn]
  by_cases hm : m.size < sectorSize * i + sectorSize
  · rw [if_neg (by omega), if_pos hm]
  · rw [if_pos (by omega), if_neg hm]

namespace FileDisk

theorem lift_apply {α : Type} (act : ByteFileM α) (file : ByteFile) (count : Nat) :
    (liftM act : FileDiskM α) ⟨file, count⟩ = match act file with
      | .ok a file => .ok a ⟨file, count⟩
      | .error e file => .error e ⟨file, count⟩ := rfl

/-- The result of a request, with the disk on the medium for the disk on the file. -/
def onMedium {α : Type} : EStateM.Result DeviceError FileDisk α → EStateM.Result DeviceError Disk α
  | .ok a d => .ok a d.disk
  | .error e d => .error e d.disk

variable {m : Medium} {place count i : Nat}
  (hcount : sectorSize * count < 0x10000000000000000)
include hcount

theorem start_eq (hi : i < count) : start i = sectorSize * i := by
  simp only [start, sectorSize] at *
  omega

theorem read_eq (i : Nat) (buffer : Array UInt8) : read i buffer ⟨⟨m, place⟩, count⟩ =
      if count ≤ i then .error (.outOfRange i) ⟨⟨m, place⟩, count⟩
      else if buffer.size < sectorSize then .error .shortBuffer ⟨⟨m, place⟩, count⟩
      else if m.size < sectorSize * (i + 1) then
        .error .endOfMedium ⟨⟨m, max (sectorSize * i) m.size⟩, count⟩
      else .ok (Bytes.overlay buffer 0 (m.get i).toArray) ⟨⟨m, sectorSize * (i + 1)⟩, count⟩ := by
  unfold read
  rw [bind_apply, checkRange]
  dsimp only
  by_cases hi : count ≤ i
  · rw [if_pos hi, if_pos hi]
  rw [if_neg hi, if_neg hi]
  dsimp only
  by_cases hbuffer : buffer.size < sectorSize
  · rw [if_pos hbuffer, if_pos hbuffer]
    rfl
  rw [if_neg hbuffer, if_neg hbuffer, start_eq hcount (by omega)]
  simp only [bind_apply, lift_apply, ByteFile.seek, ByteFile.readExact_sector]
  by_cases hm : m.size < sectorSize * (i + 1)
  · rw [if_pos hm, if_pos hm]
  · rw [if_neg hm, if_neg hm]
    rfl

theorem write_eq (i : Nat) (data : Array UInt8) : write i data ⟨⟨m, place⟩, count⟩ =
      if count ≤ i then .error (.outOfRange i) ⟨⟨m, place⟩, count⟩
      else if data.size ≠ sectorSize then .error .wrongLength ⟨⟨m, place⟩, count⟩
      else .ok () ⟨⟨m.write (sectorSize * i) data, sectorSize * i + data.size⟩, count⟩ := by
  unfold write
  rw [bind_apply, checkRange]
  dsimp only
  by_cases hi : count ≤ i
  · rw [if_pos hi, if_pos hi]
  rw [if_neg hi, if_neg hi]
  dsimp only
  by_cases hdata : data.size ≠ sectorSize
  · rw [if_pos hdata, if_pos hdata]
    rfl
  rw [if_neg hdata, if_neg hdata, start_eq hcount (by omega)]
  rfl

theorem read_disk (i : Nat) (buffer : Array UInt8) :
    Disk.read i buffer ⟨m, count, {}⟩ = onMedium (read i buffer ⟨⟨m, place⟩, count⟩) := by
  have hfaults : FaultPlan.readFails {} i = false := rfl
  simp only [read_eq hcount, Disk.read, Disk.peek, hfaults]
  by_cases hi : count ≤ i
  · simp only [if_pos hi]
    rfl
  by_cases hbuffer : buffer.size < sectorSize
  · simp only [if_neg hi, if_pos hbuffer]
    rfl
  by_cases hm : m.size < sectorSize * (i + 1)
  · simp only [if_neg hi, if_neg hbuffer, if_pos hm, Medium.sector?_eq_none hm]
    rfl
  · simp only [if_neg hi, if_neg hbuffer, if_neg hm, Medium.sector?_eq_get (Nat.le_of_not_lt hm)]
    rfl

theorem write_disk (i : Nat) (data : Array UInt8) :
    Disk.write i data ⟨m, count, {}⟩ = onMedium (write i data ⟨⟨m, place⟩, count⟩) := by
  have hfaults : FaultPlan.writeFails {} i = false := rfl
  simp only [write_eq hcount, Disk.write, Disk.writeError?, hfaults]
  by_cases hi : count ≤ i
  · simp only [if_pos hi]
    rfl
  by_cases hdata : data.size ≠ sectorSize
  · simp only [if_neg hi, if_pos hdata]
    rfl
  · simp only [if_neg hi, if_neg hdata]
    rfl

end FileDisk

/-! ## Calls to a device -/

/-- What transfers sectors. -/
structure Device (σ : Type) where
  read : Nat → Array UInt8 → EStateM DeviceError σ (Array UInt8)
  write : Nat → Array UInt8 → EStateM DeviceError σ Unit

namespace Device

/-- Disks on a medium. -/
def disks : Device Disk := ⟨Disk.read, Disk.write⟩

/-- Disks on a file. -/
def fileDisks : Device FileDisk := ⟨FileDisk.read, FileDisk.write⟩

@[simp] theorem disks_read : disks.read = Disk.read := rfl

@[simp] theorem disks_write : disks.write = Disk.write := rfl

@[simp] theorem fileDisks_read : fileDisks.read = FileDisk.read := rfl

@[simp] theorem fileDisks_write : fileDisks.write = FileDisk.write := rfl

/-- What is asked of a device. -/
inductive Call where
  | read (sector : Nat) (buffer : Array UInt8)
  | write (sector : Nat) (data : Array UInt8)
deriving DecidableEq

/-- What a device answers. A read that is done delivers the buffer. -/
inductive Reply where
  | delivered (buffer : Array UInt8)
  | written
  | refused (cause : DeviceError)
deriving DecidableEq

variable {σ : Type}

/-- What the result of a transfer comes to, and what is left of the device. -/
def answer {α : Type} (done : α → Reply) : EStateM.Result DeviceError σ α → Reply × σ
  | .ok a d => (done a, d)
  | .error cause d => (.refused cause, d)

/-- The reply to a call, and what is left of the device. -/
def respond (device : Device σ) (d : σ) : Call → Reply × σ
  | .read i buffer => answer .delivered (device.read i buffer d)
  | .write i data => answer (fun _ => .written) (device.write i data d)

theorem answer_onMedium {α : Type} (done : α → Reply)
    (result : EStateM.Result DeviceError FileDisk α) : answer done (FileDisk.onMedium result)
      = ((answer done result).1, (answer done result).2.disk) := by
  cases result <;> rfl

/-- Calls with their replies, the oldest first. -/
abbrev History : Type := List (Call × Reply)

/-- What calls are answered, one after the other, and what is left of the device. -/
def run (device : Device σ) : List Call → σ → History × σ
  | [], d => ([], d)
  | c :: calls, d =>
    let (reply, d') := device.respond d c
    let (history, d'') := run device calls d'
    ((c, reply) :: history, d'')

/-- The sector that a call is about. -/
def Call.sector : Call → Nat
  | read i _ => i
  | write i _ => i

/-- A disk of `count` sectors on the medium can do the call. -/
def Call.Possible (count : Nat) (m : Medium) : Call → Prop
  | read i buffer => i < count ∧ sectorSize ≤ buffer.size ∧ sectorSize * (i + 1) ≤ m.size
  | write i data => i < count ∧ data.size = sectorSize

/-- The sector and the data of a write that was done. -/
def written? : Call × Reply → Option (Nat × Array UInt8)
  | (.write i data, .written) => some (i, data)
  | _ => none

/-- The writes that were done, the oldest first. -/
def writes (history : History) : List (Nat × Array UInt8) := history.filterMap written?

/--
The bytes of the last write to sector `i` that was done. If there is none they are those of the
medium that the calls began with, zero where it had no bytes.
-/
def latest (m : Medium) (history : History) (i : Nat) : Array UInt8 :=
  (writes history).foldl (fun bytes (s, data) => if s = i then data else bytes) (m.get i).toArray

/-- The length of the medium: writes have extended it as far as they reached. -/
def extent (m : Medium) (history : History) : Nat :=
  (writes history).foldl (fun n (s, _) => max n (sectorSize * (s + 1))) m.size

/--
Sector `i` holds `data` after a write. No other byte has changed, and the medium ends where it did
unless the sector ends behind it.
-/
structure Overwritten (m : Medium) (i : Nat) (data : Array UInt8) (m' : Medium) : Prop where
  size_eq : m'.size = max m.size (sectorSize * (i + 1))
  inside : ∀ j (hj : j < data.size), m'.byteAt (sectorSize * i + j) = data[j]
  outside : ∀ k, k / sectorSize ≠ i → m'.byteAt k = m.byteAt k

/-- What a call does to the medium of a disk of `count` sectors that hold `contents`. -/
inductive Effect (count : Nat) (contents : Nat → Array UInt8) (m : Medium) :
    Call → Reply → Medium → Prop
  | delivered {i buffer} (hi : i < count) (hbuffer : sectorSize ≤ buffer.size)
      (hm : sectorSize * (i + 1) ≤ m.size) : Effect count contents m (.read i buffer)
        (.delivered (contents i ++ buffer.extract sectorSize)) m
  | written {i data m'} (hi : i < count) (hdata : data.size = sectorSize)
      (hm : Overwritten m i data m') : Effect count contents m (.write i data) .written m'
  | outOfRange {c} (hi : count ≤ c.sector) :
      Effect count contents m c (.refused (.outOfRange c.sector)) m
  | shortBuffer {i buffer} (hi : i < count) (hbuffer : buffer.size < sectorSize) :
      Effect count contents m (.read i buffer) (.refused .shortBuffer) m
  | endOfMedium {i buffer} (hi : i < count) (hbuffer : sectorSize ≤ buffer.size)
      (hm : m.size < sectorSize * (i + 1)) :
      Effect count contents m (.read i buffer) (.refused .endOfMedium) m
  | wrongLength {i data} (hi : i < count) (hdata : data.size ≠ sectorSize) :
      Effect count contents m (.write i data) (.refused .wrongLength) m

/-- The medium `m'` holds what calls have left of the medium `m`. -/
structure Recalls (m : Medium) (history : History) (m' : Medium) : Prop where
  size_eq : m'.size = extent m history
  get_eq : ∀ i, (m'.get i).toArray = latest m history i

variable {m m₀ m' : Medium} {place count i : Nat} {c : Call} {reply : Reply} {history : History}
  {contents : Nat → Array UInt8}

/-! ## One call -/

theorem Effect.refused_iff (h : Effect count contents m c reply m') :
    (∃ cause, reply = .refused cause) ↔ ¬ c.Possible count m := by
  constructor
  · rintro ⟨cause, rfl⟩ hc
    cases h with
    | outOfRange hi =>
      cases c <;> exact Nat.not_lt.mpr hi hc.1
    | shortBuffer hi hbuffer => exact Nat.not_lt.mpr hc.2.1 hbuffer
    | endOfMedium hi hbuffer hm => exact Nat.not_lt.mpr hc.2.2 hm
    | wrongLength hi hdata => exact hdata hc.2
  · intro hc
    cases h with
    | delivered hi hbuffer hm => exact absurd ⟨hi, hbuffer, hm⟩ hc
    | written hi hdata hm => exact absurd ⟨hi, hdata⟩ hc
    | _ => exact ⟨_, rfl⟩

theorem Effect.eq_of_ne_written (h : Effect count contents m c reply m')
    (hreply : reply ≠ .written) : m' = m := by
  cases h with
  | written => exact absurd rfl hreply
  | _ => rfl

theorem overwritten_write (m : Medium) (i : Nat) {data : Array UInt8}
    (hdata : data.size = sectorSize) :
    Overwritten m i data (m.write (sectorSize * i) data) where
  size_eq := by
    rw [Medium.size_write _ _ (by rw [hdata]; decide), hdata]
    rfl
  inside j hj := by
    rw [Medium.byteAt_write, if_pos (by omega), Nat.add_sub_cancel_left, Array.getD, dif_pos hj]
    rfl
  outside k hk := by
    have hrange : ¬ (sectorSize * i ≤ k ∧ k < sectorSize * i + data.size) := by
      simp only [sectorSize] at *
      omega
    rw [Medium.byteAt_write, if_neg hrange]

/-! ## What is left -/

theorem Overwritten.get_eq {data : Array UInt8} (h : Overwritten m i data m')
    (hdata : data.size = sectorSize) (s : Nat) :
    m'.get s = if i = s then ⟨data, hdata⟩ else m.get s := by
  apply Vector.ext
  intro j hj
  by_cases hs : i = s
  · subst hs
    rw [if_pos rfl, Medium.getElem_get]
    exact h.inside j (by rwa [hdata])
  · have hdiv : (sectorSize * s + j) / sectorSize ≠ i := by
      simp only [sectorSize]
      omega
    rw [if_neg hs, Medium.getElem_get, Medium.getElem_get, h.outside _ hdiv]

theorem writes_concat_write (history : History) (i : Nat) (data : Array UInt8) :
    writes (history ++ [(.write i data, .written)]) = writes history ++ [(i, data)] :=
  List.filterMap_append ..

theorem writes_concat (history : History) (c : Call) (hreply : reply ≠ .written) :
    writes (history ++ [(c, reply)]) = writes history := by
  have hnone : written? (c, reply) = none := by
    unfold written?
    split
    · rename_i heq
      exact absurd (congrArg Prod.snd heq) hreply
    · rfl
  simp [writes, hnone]

theorem Recalls.respond (hm : Recalls m₀ history m) (h : Effect count contents m c reply m') :
    Recalls m₀ (history ++ [(c, reply)]) m' := by
  by_cases hreply : reply = .written
  · subst hreply
    cases h with
    | @written i data _ hi hdata h =>
      constructor
      · rw [extent, writes_concat_write, List.foldl_append, h.size_eq, hm.size_eq]
        rfl
      · intro s
        rw [latest, writes_concat_write, List.foldl_append, h.get_eq hdata,
          apply_ite Vector.toArray, hm.get_eq]
        rfl
  · obtain rfl := h.eq_of_ne_written hreply
    constructor
    · rw [extent, writes_concat history c hreply]
      exact hm.size_eq
    · intro s
      rw [latest, writes_concat history c hreply]
      exact hm.get_eq s

/--
A disk on a file has `count` sectors, and calls have left of the medium `m` what is on the file now.
Each further call is done or refused accordingly.
-/
structure Keeps (m : Medium) (count : Nat) (history : History) (d : FileDisk) : Prop where
  count_eq : d.count = count
  recalls : Recalls m history d.file.medium
  effect : ∀ c, Effect count (latest m history) d.file.medium c (fileDisks.respond d c).1
    (fileDisks.respond d c).2.file.medium
  refused_iff : ∀ c, (∃ cause, (fileDisks.respond d c).1 = .refused cause) ↔
    ¬ c.Possible count d.file.medium

/-! ## Calls to a disk on a file -/

section

variable (hcount : sectorSize * count < 0x10000000000000000)
include hcount

theorem exists_effect (c : Call) :
    ∃ reply m' place', fileDisks.respond ⟨⟨m, place⟩, count⟩ c = (reply, ⟨⟨m', place'⟩, count⟩) ∧
      Effect count (fun i => (m.get i).toArray) m c reply m' := by
  cases c with
  | read i buffer =>
    rw [respond, fileDisks_read, FileDisk.read_eq hcount]
    by_cases hi : count ≤ i
    · rw [if_pos hi]
      exact ⟨_, _, _, rfl, .outOfRange hi⟩
    rw [if_neg hi]
    by_cases hbuffer : buffer.size < sectorSize
    · rw [if_pos hbuffer]
      exact ⟨_, _, _, rfl, .shortBuffer (Nat.lt_of_not_le hi) hbuffer⟩
    rw [if_neg hbuffer]
    have hsize : (m.get i).toArray.size = sectorSize := (m.get i).size_toArray
    by_cases hm : m.size < sectorSize * (i + 1)
    · rw [if_pos hm]
      exact ⟨_, _, _, rfl, .endOfMedium (Nat.lt_of_not_le hi) (Nat.le_of_not_lt hbuffer) hm⟩
    · rw [if_neg hm, Bytes.overlay_zero (by omega), hsize]
      exact ⟨_, _, _, rfl, .delivered (Nat.lt_of_not_le hi) (Nat.le_of_not_lt hbuffer)
        (Nat.le_of_not_lt hm)⟩
  | write i data =>
    rw [respond, fileDisks_write, FileDisk.write_eq hcount]
    by_cases hi : count ≤ i
    · rw [if_pos hi]
      exact ⟨_, _, _, rfl, .outOfRange hi⟩
    rw [if_neg hi]
    by_cases hdata : data.size ≠ sectorSize
    · rw [if_pos hdata]
      exact ⟨_, _, _, rfl, .wrongLength (Nat.lt_of_not_le hi) hdata⟩
    · rw [if_neg hdata]
      have hsize : data.size = sectorSize := Decidable.not_not.mp hdata
      exact ⟨_, _, _, rfl, .written (Nat.lt_of_not_le hi) hsize (overwritten_write m i hsize)⟩

theorem disks_respond (c : Call) :
    disks.respond ⟨m, count, {}⟩ c = ((fileDisks.respond ⟨⟨m, place⟩, count⟩ c).1,
      (fileDisks.respond ⟨⟨m, place⟩, count⟩ c).2.disk) := by
  cases c with
  | read i buffer =>
    rw [respond, disks_read, FileDisk.read_disk hcount, answer_onMedium]
    rfl
  | write i data =>
    rw [respond, disks_write, FileDisk.write_disk hcount, answer_onMedium]
    rfl

theorem Recalls.run (calls : List Call) (hm : Recalls m₀ history m) : ∃ m' place',
    (fileDisks.run calls ⟨⟨m, place⟩, count⟩).2 = ⟨⟨m', place'⟩, count⟩ ∧
      Recalls m₀ (history ++ (fileDisks.run calls ⟨⟨m, place⟩, count⟩).1) m' := by
  induction calls generalizing m place history with
  | nil => exact ⟨m, place, rfl, by rwa [Device.run, List.append_nil]⟩
  | cons c calls ih =>
    obtain ⟨reply, m', place', hrespond, heffect⟩ := @exists_effect m place count hcount c
    -- What was asked before is part of the invariant, so the rest starts from a longer history.
    simp only [Device.run, hrespond]
    rw [List.append_cons]
    exact ih (hm.respond heffect)

theorem disks_run (calls : List Call) :
    disks.run calls ⟨m, count, {}⟩ = ((fileDisks.run calls ⟨⟨m, place⟩, count⟩).1,
      (fileDisks.run calls ⟨⟨m, place⟩, count⟩).2.disk) := by
  induction calls generalizing m place with
  | nil => rfl
  | cons c calls ih =>
    -- No call changes `count`, and so its bound holds for the rest of the calls.
    obtain ⟨reply, m', place', hrespond, -⟩ := @exists_effect m place count hcount c
    have hdisks : disks.respond ⟨m, count, {}⟩ c = (reply, ⟨m', count, {}⟩) := by
      rw [disks_respond hcount, hrespond]
      rfl
    simp only [run, hrespond, hdisks]
    rw [ih]

theorem keeps_run (calls : List Call) :
    Keeps m count (fileDisks.run calls ⟨⟨m, place⟩, count⟩).1
      (fileDisks.run calls ⟨⟨m, place⟩, count⟩).2 := by
  have hstart : Recalls m [] m := ⟨rfl, fun _ => rfl⟩
  obtain ⟨m', place', hrun, hrecalls⟩ := @Recalls.run m m place count [] hcount calls hstart
  rw [List.nil_append] at hrecalls
  rw [hrun]
  have heffect (c : Call) : Effect count
      (latest m (fileDisks.run calls ⟨⟨m, place⟩, count⟩).1) m' c
      (fileDisks.respond ⟨⟨m', place'⟩, count⟩ c).1
      (fileDisks.respond ⟨⟨m', place'⟩, count⟩ c).2.file.medium := by
    obtain ⟨reply, m'', place'', hrespond, heffect⟩ := @exists_effect m' place' count hcount c
    rw [hrespond]
    rwa [funext hrecalls.get_eq] at heffect
  exact ⟨rfl, hrecalls, heffect, fun c => (heffect c).refused_iff⟩

end

end Device

/-! ## Making a disk on a file -/

theorem ByteFile.zeroSectors_eq (n : Nat) (m : Medium) (place : Nat) : zeroSectors n ⟨m, place⟩
    = .ok () ⟨m.write place (Array.replicate (sectorSize * n) 0), place + sectorSize * n⟩ := by
  induction n generalizing m place with
  | zero => rfl
  | succ n ih =>
    have hzero : Sector.zero.toArray = Array.replicate sectorSize 0 := rfl
    have hlength : sectorSize + sectorSize * n = sectorSize * (n + 1) := by
      rw [Nat.mul_succ, Nat.add_comm]
    have hnext : (m.write place (Array.replicate sectorSize 0)).write (place + sectorSize)
        (Array.replicate (sectorSize * n) 0)
          = m.write place (Array.replicate (sectorSize * (n + 1)) 0) := by
      have happend := m.write_append place (Array.replicate sectorSize 0)
        (Array.replicate (sectorSize * n) 0)
      rwa [Array.size_replicate, Array.replicate_append_replicate, hlength] at happend
    simp only [zeroSectors, bind_apply, writeAll, hzero, Array.size_replicate]
    rw [ih, hnext, Nat.add_assoc, hlength]

namespace FileDisk

/-- The first `count` sectors of a medium are zero. Its other bytes are kept, and it is not cut. -/
structure Cleared (m : Medium) (count : Nat) (m' : Medium) : Prop where
  size_eq : m'.size = max m.size (sectorSize * count)
  get_eq : ∀ i < count, m'.get i = Sector.zero
  kept : ∀ k, sectorSize * count ≤ k → m'.byteAt k = m.byteAt k

/-- What a file becomes when a disk of `count` sectors is made on it. -/
inductive Built (file : ByteFile) (count : Nat) :
    Bool → EStateM.Result DeviceError ByteFile FileDisk → Prop
  | empty {clear} (h : count = 0) : Built file count clear (.error .noSectors file)
  | kept (h : count ≠ 0) : Built file count false (.ok ⟨file, count⟩ file)
  | cleared {file'} (h : count ≠ 0) (hm : Cleared file.medium count file'.medium) :
      Built file count true (.ok ⟨file', count⟩ file')

theorem cleared_clear (m : Medium) {count : Nat} (h : count ≠ 0) :
    Cleared m count (m.clear count) where
  size_eq := m.size_clear h
  get_eq i hi := by
    apply Vector.ext
    intro j hj
    have hlt : sectorSize * i + j < sectorSize * count := by
      simp only [sectorSize]
      omega
    rw [Medium.getElem_get, Medium.byteAt_clear, if_pos hlt, Sector.zero, Vector.getElem_replicate]
  kept k hk := by rw [Medium.byteAt_clear, if_neg (Nat.not_lt.mpr hk)]

/-- How a disk is made. The place of the file is at its start, or behind what was cleared. -/
theorem build_eq (m : Medium) (place count : Nat) (clear : Bool) : build count clear ⟨m, place⟩ =
    if count = 0 then .error .noSectors ⟨m, place⟩
    else if clear then
      .ok ⟨⟨m.clear count, sectorSize * count⟩, count⟩ ⟨m.clear count, sectorSize * count⟩
    else .ok ⟨⟨m, place⟩, count⟩ ⟨m, place⟩ := by
  unfold build
  by_cases h : count = 0
  · rw [if_pos h, if_pos h]
    rfl
  rw [if_neg h, if_neg h]
  cases clear with
  | false => rfl
  | true =>
    have hzero := ByteFile.zeroSectors_eq count m 0
    rw [Nat.zero_add] at hzero
    rw [if_pos rfl, if_pos rfl]
    simp only [bind_apply, ByteFile.seek, hzero]
    rfl

theorem built_build (file : ByteFile) (count : Nat) (clear : Bool) :
    Built file count clear (build count clear file) := by
  rw [build_eq]
  by_cases h : count = 0
  · rw [if_pos h]
    exact .empty h
  rw [if_neg h]
  cases clear with
  | false => exact .kept h
  | true => exact .cleared h (cleared_clear _ h)

theorem prepare_eq (file : ByteFile) (count : Nat) (clear : Bool) :
    Disk.prepare file.medium count clear = match build count clear file with
      | .ok d _ => .ok d.disk
      | .error e _ => .error e := by
  rw [build_eq, Disk.prepare]
  by_cases h : count = 0
  · rw [if_pos h, if_pos h]
  · rw [if_neg h, if_neg h]
    cases clear <;> rfl

end FileDisk

namespace Device

/--
**A disk on a file is an array of sectors.** Let the end of a disk of `count` sectors be a number of
64 bits, and the disk be on a file with any bytes and at any place. After any calls, of which some
may have been refused, the file holds in each sector the bytes of the last write to it that was done,
or else those that it held at first, and is as long as it was or as the writes reached.

A further write is done if the disk has the sector and the data are one sector. It replaces the
bytes of the sector and no others, and where it extends the file there are zeros before it. A further
read is done if the disk has the sector, the buffer has room for it and the file reaches to its end.
It delivers the sector and leaves the file alone, as does every call that is refused. A disk on a
medium with the bytes of the file gives the same replies and is left with the same bytes.

To make a disk of no sectors is refused. Any other is made, and its file is cleared up to its last
sector, with the bytes behind it kept, or is left as it is.
-/
theorem sectors_are_kept {count : Nat} (hcount : sectorSize * count < 0x10000000000000000)
    (file : ByteFile) :
    (∀ calls, ∃ history d, fileDisks.run calls ⟨file, count⟩ = (history, d) ∧
      Keeps file.medium count history d ∧
      disks.run calls ⟨file.medium, count, {}⟩ = (history, d.disk)) ∧
    ∀ clear, FileDisk.Built file count clear (FileDisk.build count clear file) ∧
      Disk.prepare file.medium count clear = match FileDisk.build count clear file with
        | .ok d _ => .ok d.disk
        | .error e _ => .error e := by
  constructor
  · intro calls
    exact ⟨_, _, rfl, keeps_run hcount calls, disks_run hcount calls⟩
  · intro clear
    exact ⟨FileDisk.built_build file count clear, FileDisk.prepare_eq file count clear⟩

/--
Of four sectors, on a file that is shorter than one, the first cannot be read, and the third can be
written. All sectors up to it can be read from then on.
-/
theorem sectors_are_kept_four : ∃ history d, fileDisks.run
      [.read 0 (Array.replicate 128 0), .write 2 (Array.replicate 128 0x55),
        .write 1 (Array.replicate 64 0), .write 4 (Array.replicate 128 0)]
      ⟨⟨.replicate 100 7, 5⟩, 4⟩ = (history, d) ∧
    history.map Prod.snd
      = [.refused .endOfMedium, .written, .refused .wrongLength, .refused (.outOfRange 4)] ∧
    Keeps (.replicate 100 7) 4 history d ∧ d.file.medium.size = 384 ∧
    (d.file.medium.get 2).toArray = Array.replicate 128 0x55 := by
  obtain ⟨history, d, hrun, hkeeps, -⟩ :=
    (@sectors_are_kept 4 (by decide) ⟨.replicate 100 7, 5⟩).1 _
  have hhistory : _ = history := congrArg Prod.fst hrun
  refine ⟨history, d, hrun, ?_, hkeeps, ?_, ?_⟩
  · rw [← hhistory]
    decide +kernel
  · rw [hkeeps.recalls.size_eq, ← hhistory]
    decide +kernel
  · rw [hkeeps.recalls.get_eq, ← hhistory]
    decide +kernel

end Device

end IndexedDisk
