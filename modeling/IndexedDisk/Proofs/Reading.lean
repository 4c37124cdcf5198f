import IndexedDisk.Proofs.Walk

/-!
# Requests that only read

Such a request leaves the medium as it is, whatever the medium holds and whatever faults the disk
shows; all that it uses up are outcomes that were planned for reads (`ReadsOnly`). To look for a
file, to list directories and to read a file is of this kind.
-/

namespace IndexedDisk

namespace FaultPlan

/-- The plan once `n` reads were tried. -/
def afterReads (p : FaultPlan) (n : Nat) : FaultPlan :=
  { p with reads := p.reads.drop n }

theorem afterReads_afterReads (p : FaultPlan) (n k : Nat) :
    (p.afterReads n).afterReads k = p.afterReads (n + k) := by
  simp only [afterReads, List.drop_drop]

theorem afterRead_eq (p : FaultPlan) : p.afterRead = p.afterReads 1 := by
  simp only [afterRead, afterReads, List.drop_one]

theorem Faultless.afterReads {p : FaultPlan} (h : p.Faultless) (n : Nat) :
    (p.afterReads n).Faultless :=
  { h with reads := fun b hb => h.reads b (List.mem_of_mem_drop hb) }

end FaultPlan

/-- The request leaves the medium as it is and tries no write, whether or not it fails. -/
def ReadsOnly {α : Type} (act : DiskM α) : Prop :=
  ∀ m count p, ∃ result n, act ⟨m, count, p⟩ = answer result ⟨m, count, p.afterReads n⟩

namespace ReadsOnly

variable {α β ρ : Type} {act : DiskM α}

theorem of_follows {result : Except Failure α} (h : ∀ m count, Follows m count act [] result) :
    ReadsOnly act :=
  fun m count p => ⟨result, 0, h m count p⟩

theorem pure (a : α) : ReadsOnly (Pure.pure a) := of_follows fun _ _ => Follows.pure a

theorem refuse (cause : Refusal) : ReadsOnly (IndexedDisk.refuse cause : DiskM α) :=
  of_follows fun _ _ => Follows.refuse cause

theorem breach (cause : Breach) : ReadsOnly (IndexedDisk.breach cause : DiskM α) :=
  of_follows fun _ _ => Follows.breach cause

theorem of_except (x : Except Breach α) : ReadsOnly (liftM x : DiskM α) := by
  cases x with
  | ok a => exact pure a
  | error cause => exact breach cause

theorem of_except_refusal (x : Except Refusal α) : ReadsOnly (liftM x : DiskM α) := by
  cases x with
  | ok a => exact pure a
  | error cause => exact refuse cause

theorem sectorCount : ReadsOnly Disk.sectorCount :=
  fun _ count _ => ⟨.ok count, 0, rfl⟩

theorem readSector (s : Nat) : ReadsOnly (Disk.readSector s) := by
  intro m count p
  rw [Disk.readSector_apply, p.afterRead_eq]
  cases Disk.peek ⟨m, count, p⟩ s sectorSize with
  | ok bytes => exact ⟨.ok bytes, 1, rfl⟩
  | error e => exact ⟨.error (.refused (.device e)), 1, rfl⟩

theorem sync : ReadsOnly (liftM Disk.sync : DiskM Unit) := by
  intro m count p
  simp only [liftM, monadLift, MonadLift.monadLift, Disk.sync]
  cases p.sync with
  | false => exact ⟨.ok (), 0, rfl⟩
  | true => exact ⟨.error (.refused (.device .syncFault)), 0, rfl⟩

theorem bind {f : α → DiskM β} (h : ReadsOnly act) (hf : ∀ a, ReadsOnly (f a)) :
    ReadsOnly (act >>= f) := by
  intro m count p
  obtain ⟨result, n, hact⟩ := h m count p
  cases result with
  | error cause =>
    refine ⟨.error cause, n, ?_⟩
    rw [bind_apply, hact]
    rfl
  | ok a =>
    obtain ⟨result', k, hf⟩ := hf a m count (p.afterReads n)
    refine ⟨result', n + k, ?_⟩
    rw [bind_apply, hact, ← FaultPlan.afterReads_afterReads]
    exact hf

theorem map {f : α → β} (h : ReadsOnly act) : ReadsOnly (do return f (← act)) :=
  bind h fun _ => pure _

theorem runOn_lift (h : ReadsOnly act) (v : ρ) : ReadsOnly (Disk.runOn v (liftM act)) := by
  intro m count p
  obtain ⟨result, n, hact⟩ := h m count p
  refine ⟨result.map (·, v), n, ?_⟩
  simp only [Disk.runOn, liftM, monadLift, MonadLift.monadLift, hact]
  cases result <;> rfl

theorem runOn_bind {act : Disk.WithM ρ α} {f : α → Disk.WithM ρ β} {v : ρ}
    (h : ReadsOnly (Disk.runOn v act)) (hf : ∀ a v, ReadsOnly (Disk.runOn v (f a))) :
    ReadsOnly (Disk.runOn v (act >>= f)) := by
  rw [Follows.runOn_bind_eq]
  exact bind h fun x => hf x.1 x.2

theorem runOn_pure (a : α) (v : ρ) : ReadsOnly (Disk.runOn v (Pure.pure a)) :=
  of_follows fun _ _ => Follows.runOn_pure a v

theorem medium_eq (h : ReadsOnly act) {m : Medium} {count : Nat} {p : FaultPlan}
    {result : Except Failure α} {disk : Disk} (hact : act ⟨m, count, p⟩ = answer result disk) :
    disk.medium = m ∧ disk.count = count := by
  obtain ⟨result', n, heq⟩ := h m count p
  rw [heq] at hact
  cases result <;> cases result' <;> cases hact <;> exact ⟨rfl, rfl⟩

end ReadsOnly

/-! ## Files -/

theorem IndexBlock.readsOnly_fetch (p : Int32) : ReadsOnly (fetch p) := (ReadsOnly.readSector _).map

theorem IndexBlock.readsOnly_entriesAt (p : Int32) : ReadsOnly (entriesAt p) :=
  (readsOnly_fetch p).bind fun _ => ReadsOnly.of_except _

theorem Header.readsOnly_fetch (p : Int32) : ReadsOnly (fetch p) := (ReadsOnly.readSector _).map

theorem Header.readsOnly_follow (place : Place) : ReadsOnly (follow place) := by
  cases place with
  | direct sector => exact ReadsOnly.pure sector
  | single block index =>
    exact (IndexBlock.readsOnly_fetch block).bind fun b => ReadsOnly.of_except _
  | double block child index =>
    exact (IndexBlock.readsOnly_fetch block).bind fun b => (ReadsOnly.of_except _).bind fun p =>
      (IndexBlock.readsOnly_fetch p).bind fun c => ReadsOnly.of_except _

theorem Header.readsOnly_sectorOf (h : Header) (offset : Nat) : ReadsOnly (h.sectorOf offset) := by
  unfold sectorOf
  split
  · exact ReadsOnly.refuse _
  · exact Header.readsOnly_follow _

namespace OpenFile

theorem readsOnly_openAt (p : Int32) : ReadsOnly (openAt p) := (Header.readsOnly_fetch p).map

theorem readsOnly_readSpan (f : OpenFile) (position : Nat) (span : Span) (buffer : Array UInt8) :
    ReadsOnly (Disk.runOn buffer (f.readSpan position span)) := by
  refine ReadsOnly.runOn_bind ((f.header.readsOnly_sectorOf _).runOn_lift _) fun sector buffer => ?_
  refine ReadsOnly.runOn_bind ((ReadsOnly.readSector _).runOn_lift _) fun bytes buffer => ?_
  exact fun _ _ _ => ⟨.ok _, 0, rfl⟩

theorem readsOnly_readSpans (f : OpenFile) (position : Nat) (spans : List Span)
    (buffer : Array UInt8) : ReadsOnly (Disk.runOn buffer (f.readSpans position spans)) := by
  induction spans generalizing buffer with
  | nil => exact ReadsOnly.runOn_pure () buffer
  | cons span rest ih =>
    exact ReadsOnly.runOn_bind (f.readsOnly_readSpan position span buffer) fun _ buffer => ih buffer

theorem readsOnly_readAt (f : OpenFile) (position : Nat) (buffer : Array UInt8) :
    ReadsOnly (Disk.runOn buffer (f.readAt position)) := by
  have hroom : ReadsOnly (Disk.runOn buffer room) := fun _ _ _ => ⟨.ok _, 0, rfl⟩
  refine ReadsOnly.runOn_bind hroom fun count buffer => ?_
  split
  · exact ReadsOnly.runOn_pure 0 buffer
  · refine ReadsOnly.runOn_bind ?_ fun stop buffer => ?_
    · cases f.stop position count with
      | ok stop => exact ReadsOnly.runOn_pure stop buffer
      | error cause => exact fun _ _ _ => ⟨.error _, 0, rfl⟩
    · exact ReadsOnly.runOn_bind (f.readsOnly_readSpans position _ buffer) fun _ buffer =>
        ReadsOnly.runOn_pure _ buffer

theorem readsOnly_read (f : OpenFile) (buffer : Array UInt8) :
    ReadsOnly (Disk.runOn buffer f.read) :=
  ReadsOnly.runOn_bind (f.readsOnly_readAt f.position buffer) fun _ buffer =>
    ReadsOnly.runOn_pure _ buffer

end OpenFile

/-! ## The map and the directories -/

theorem SectorMap.readsOnly_fetch (f : OpenFile) (size : Nat) : ReadsOnly (fetch f size) :=
  (f.readsOnly_readAt 0 _).bind fun _ => ReadsOnly.pure _

namespace Directory

theorem readsOnly_fetch (f : OpenFile) (size : Nat) : ReadsOnly (fetch f size) := by
  rw [fetch_eq]
  exact (f.readsOnly_readAt 0 _).bind fun _ => ReadsOnly.pure _

theorem readsOnly_openAt (p : Int32) : ReadsOnly (openAt p) :=
  (OpenFile.readsOnly_openAt p).bind fun f => (readsOnly_fetch f directorySlots).map

theorem readsOnly_descend (file : OpenFile) (d : Directory) (walked names : List String) :
    ReadsOnly (descend file d walked names) := by
  induction names generalizing file d walked with
  | nil => exact ReadsOnly.pure _
  | cons name rest ih =>
    rw [descend]
    split
    · exact ReadsOnly.refuse _
    · split
      · exact (readsOnly_openAt _).bind fun _ => ih _ _ _
      · exact ReadsOnly.refuse _

theorem readsOnly_resolve (root : OpenFile) (names : List String) :
    ReadsOnly (resolve root names) :=
  (readsOnly_fetch root directorySlots).bind fun d => readsOnly_descend root d [] names

theorem readsOnly_subtree (fuel depth : Nat) (entries : List Entry) :
    ReadsOnly (subtree fuel depth entries) := by
  induction fuel, depth, entries using subtree.induct with
  | case1 fuel depth =>
    rw [subtree]
    exact ReadsOnly.pure _
  | case2 depth e rest hdir ih =>
    rw [subtree, if_pos hdir]
    exact (ReadsOnly.breach _).bind fun inner => ih.bind fun after => ReadsOnly.pure _
  | case3 depth e rest hdir fuel ihAfter ihInner =>
    rw [subtree, if_pos hdir]
    exact (readsOnly_openAt _).bind fun d => (ihInner d.2).bind fun inner =>
      ihAfter.bind fun after => ReadsOnly.pure _
  | case4 fuel depth e rest hdir ih =>
    rw [subtree_file hdir]
    exact ih.bind fun after => ReadsOnly.pure _

end Directory

/-! ## Requests to a volume -/

namespace Volume

variable (v : Volume) (path : String)

theorem readsOnly_openFiles : ReadsOnly openFiles :=
  (OpenFile.readsOnly_openAt _).bind fun _ => (OpenFile.readsOnly_openAt _).map

theorem readsOnly_mount : ReadsOnly mount := by
  refine readsOnly_openFiles.bind fun v => ReadsOnly.sectorCount.bind fun count => ?_
  split
  · exact ReadsOnly.pure v
  · exact ReadsOnly.refuse _

theorem readsOnly_unmount : ReadsOnly unmount := ReadsOnly.sync

theorem readsOnly_fetchMap : ReadsOnly v.fetchMap :=
  ReadsOnly.sectorCount.bind fun count => SectorMap.readsOnly_fetch v.mapFile count

theorem readsOnly_openPath : ReadsOnly (v.openPath path) := by
  refine (ReadsOnly.of_except_refusal _).bind fun ⟨parents, name⟩ => ?_
  refine (Directory.readsOnly_resolve v.rootFile parents).bind fun ⟨_, d⟩ => ?_
  dsimp only
  cases d.find? name with
  | none => exact ReadsOnly.refuse _
  | some e => exact OpenFile.readsOnly_openAt e.sector

theorem readsOnly_list : ReadsOnly (v.list path) :=
  (ReadsOnly.of_except_refusal _).bind fun _ => (Directory.readsOnly_resolve v.rootFile _).bind
    fun _ => ReadsOnly.pure _

theorem readsOnly_listTree : ReadsOnly (v.listTree path) :=
  (ReadsOnly.of_except_refusal _).bind fun _ => (Directory.readsOnly_resolve v.rootFile _).bind
    fun _ => ReadsOnly.sectorCount.bind fun _ => Directory.readsOnly_subtree _ _ _

theorem readsOnly_freeSectors : ReadsOnly v.freeSectors :=
  v.readsOnly_fetchMap.bind fun _ => ReadsOnly.of_except _

end Volume

end IndexedDisk
