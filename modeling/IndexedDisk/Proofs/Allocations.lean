import IndexedDisk.Proofs.Ownership
import IndexedDisk.Proofs.Undoing
import Mathlib.Data.List.Nodup
import Mathlib.Data.List.Pairwise

/-!
# Files that come and go

Headers that take sectors from one map and give them back, in any order and number, while writes to
the disk may fail. A `Pool` is what there is between two actions. An allocation that fails may leave
blocks behind that were written, but in free sectors only, so that no live header comes to name a
sector that it did not name from the start (`live_headers_stay_apart`).

* `Header.allocate_cases`: an allocation takes free sectors, or none at all.
* `Pool.Sound.perform`: one action keeps the live headers apart; `Pool.Sound.of_comes`: so does any
  number of them.
-/

namespace IndexedDisk

/-- The next reads, when they are of these sectors, are not planned to fail. -/
def FaultPlan.Spares (p : FaultPlan) : List Nat → Prop
  | [] => True
  | s :: rest => p.readFails s = false ∧ p.afterRead.Spares rest

/-- The disk has the first `n` sectors, and the medium has their bytes. -/
structure Disk.Covers (disk : Disk) (n : Nat) : Prop where
  le_count : n ≤ disk.count
  le_size : sectorSize * n ≤ disk.medium.size

/-- A header that was allocated, and the sectors that could be found by it right after. -/
structure LiveHeader where
  header : Header
  data : Option (List Int32)
  index : Option (List Int32)

namespace LiveHeader

/-- The header with the sectors that can be found by it. -/
def found (disk : Disk) (h : Header) : LiveHeader where
  header := h
  data := disk.look h.dataSectors
  index := disk.look h.indexSectors

/-- The data sectors and then the index blocks. -/
def sectors (l : LiveHeader) : List Nat := (l.data.getD [] ++ l.index.getD []).map Word.wide

end LiveHeader

/-- A disk, a map of its sectors, and the headers that have sectors of the map. -/
structure Pool where
  disk : Disk
  map : SectorMap
  live : List LiveHeader

namespace Pool

/-- The sectors of all live headers. -/
def sectors (pool : Pool) : List Nat := pool.live.flatMap LiveHeader.sectors

/-- What can be done to a pool. -/
inductive Action where
  /-- Allocates a header that is not live. -/
  | allocate (h : Header) (size : Nat)
  /-- Deallocates live header `k`. -/
  | deallocate (k : Nat)
  /-- Writes a sector. -/
  | write (s : Nat) (bytes : Sector)

/-- What an action answers and what it leaves, if these faults are planned. -/
def Action.perform (pool : Pool) (p : FaultPlan) : Action → Except Failure Unit × Pool
  | .allocate h size =>
    match Header.allocate size ⟨{ pool.disk with faults := p }, pool.map, h⟩ with
    | .ok () ⟨disk, map, h⟩ => (.ok (), ⟨disk, map, .found disk h :: pool.live⟩)
    | .error cause ⟨disk, map, _⟩ => (.error cause, { pool with disk, map })
  | .deallocate k =>
    match pool.live[k]? with
    | none => (.ok (), pool)
    | some l =>
      match Header.deallocate ⟨{ pool.disk with faults := p }, pool.map, l.header⟩ with
      | .ok () ⟨disk, map, _⟩ => (.ok (), ⟨disk, map, pool.live.eraseIdx k⟩)
      | .error cause ⟨disk, map, _⟩ => (.error cause, { pool with disk, map })
  | .write s bytes =>
    match Disk.writeSector s bytes { pool.disk with faults := p } with
    | .ok () disk => (.ok (), { pool with disk })
    | .error cause disk => (.error cause, { pool with disk })

/--
A header that is deallocated is live and its index blocks can be read, and only data sectors of live
headers are written.
-/
def Action.Admissible (pool : Pool) (p : FaultPlan) : Action → Prop
  | .allocate _ _ => True
  | .deallocate k => ∃ l, pool.live[k]? = some l ∧
      ∀ index, pool.disk.look l.header.indexSectors = some index → p.Spares (index.map Word.wide)
  | .write s _ => ∃ l ∈ pool.live, ∃ data,
      pool.disk.look l.header.dataSectors = some data ∧ s ∈ data.map Word.wide

/-- The pool is what admissible actions have made of the first one. -/
inductive Comes (start : Pool) : Pool → Prop
  | start : Comes start start
  | perform {pool} (h : Comes start pool) {p : FaultPlan} {a : Action} (ha : a.Admissible pool p) :
      Comes start (a.perform pool p).2

end Pool

/-! ## Reading -/

namespace FaultPlan

theorem Readable.spares {p : FaultPlan} (h : p.Readable) (sectors : List Nat) :
    p.Spares sectors := by
  induction sectors generalizing p with
  | nil => trivial
  | cons s sectors ih => exact ⟨h.readFails s, ih h.afterRead⟩

end FaultPlan

variable {m : Medium} {count n : Nat} {p : FaultPlan}

theorem FaultPlan.Spares.yields {sectors : List Nat} (h : p.Spares sectors) :
    p.Yields sectors := by
  induction sectors generalizing p with
  | nil => exact ⟨nofun, nofun⟩
  | cons s sectors ih =>
    obtain ⟨hhead, hs⟩ := Bool.or_eq_false_iff.mp h.1
    have hrest := ih h.2
    refine ⟨fun b hb => ?_, fun i hi => ?_⟩
    · cases hreads : p.reads with
      | nil => simp [hreads] at hb
      | cons c reads =>
        rw [hreads] at hb hhead
        rcases List.mem_cons.mp hb with rfl | hb
        · exact hhead
        · refine hrest.reads b ?_
          rw [FaultPlan.afterRead, hreads]
          exact hb
    · rcases List.mem_cons.mp hi with rfl | hi
      · exact hs
      · exact hrest.readable i hi

theorem Follows.eval_of_spares {α : Type} {act : DiskM α} {sectors : List Nat} {a : α}
    (h : Follows m count act (Script.reads sectors) (.ok a)) (hp : p.Spares sectors)
    (hs : ∀ s ∈ sectors, s < n) (hcount : n ≤ count) (hm : sectorSize * n ≤ m.size) :
    ∃ q, act ⟨m, count, p⟩ = .ok a ⟨m, count, q⟩ :=
  ⟨_, h.eval_of_delivers {
    toYields := hp.yields
    lt_count := fun s h => Nat.lt_of_lt_of_le (hs s h) hcount
    covered := fun s h => Script.reaches hm (hs s h) }⟩

theorem Follows.look_of_covers {α : Type} {act : DiskM α} {sectors : List Nat} {a : α}
    (h : Follows m count act (Script.reads sectors) (.ok a))
    (hdisk : Disk.Covers ⟨m, count, p⟩ n) (hs : ∀ s ∈ sectors, s < n) :
    Disk.look ⟨m, count, p⟩ act = some a := by
  obtain ⟨q, hact⟩ := h.eval_of_spares
    (FaultPlan.faultless_default.toReadable.spares sectors) hs hdisk.le_count hdisk.le_size
  rw [Disk.look, hact]

namespace Header

variable {h : Header}

theorem Intact.found_eq (hh : h.Intact m) (hdisk : Disk.Covers ⟨m, count, p⟩ n)
    (hs : ∀ s ∈ h.index m, s < n) : LiveHeader.found ⟨m, count, p⟩ h
      = ⟨h, some (h.dataPointers m), some (h.indexPointers m)⟩ := by
  rw [LiveHeader.found, hh.follows_dataSectors.look_of_covers hdisk hs,
    hh.follows_indexSectors.look_of_covers hdisk fun s hmem => hs s (double_subset_index hmem)]

/-! ## One allocation -/

variable {map : SectorMap} {size : Nat}

/-- An allocation takes the lowest free sectors, or fails and has written free sectors at most. -/
theorem allocate_cases (hmap : map.Tidy) (hsmall : map.size ≤ 0x80000000) (size : Nat) (m : Medium)
    (count : Nat) (p : FaultPlan) (h : Header) :
    (∃ cause m' q h', allocate size ⟨⟨m, count, p⟩, map, h⟩
        = .error (.refused cause) ⟨⟨m', count, q⟩, map, h'⟩ ∧
      m.size ≤ m'.size ∧ ∀ i ∉ map.free, m'.get i = m.get i) ∨
    Fits size map.free ∧ ∃ q, allocate size ⟨⟨m, count, p⟩, map, h⟩
      = .ok () ⟨⟨(fillScript (sectorsFor size) map.free).medium m, count, q⟩,
        map.setAll (map.free.take (sectorsFor size + indexBlocksFor (sectorsFor size))) true,
        planned size map.free⟩ := by
  cases hact : allocate size ⟨⟨m, count, p⟩, map, h⟩ with
  | error cause held =>
    left
    have hundone := undone_of_allocate hmap hact
    have hchanged := hundone.changedIn
    obtain ⟨⟨m', count', q⟩, map', h'⟩ := held
    obtain rfl : map' = map := hundone.map_eq
    obtain rfl : count' = count := hchanged.count_eq
    obtain ⟨cause, rfl⟩ := hundone.exists_refused
    exact ⟨cause, m', q, h', rfl, hchanged.size_le, fun i => hchanged.get_of_not_mem
      fun s hs => Nat.lt_of_lt_of_le (SectorMap.lt_of_mem_free hs) hsmall⟩
  | ok u held =>
    right
    obtain ⟨hsize, free, hfree, hroom⟩ := room_of_allocate hact
    have hf : Fits size map.free := {
      size_le := hsize
      room := Nat.le_trans hroom (SectorMap.le_length_free hfree)
      small := fun i hi => Nat.lt_of_lt_of_le (SectorMap.lt_of_mem_free hi) hsmall
      nodup := SectorMap.nodup_free map }
    obtain ⟨disk, v⟩ := held
    have hrun : Disk.runOn ⟨map, h⟩ (allocate size) ⟨m, count, p⟩ = .ok ((), v) disk := by
      rw [Disk.runOn, hact]
    obtain ⟨hvalue, hplay⟩ := (follows_allocate hmap hf).play_of_ok hrun
    obtain rfl := Script.play_ok hplay
    obtain rfl := (Prod.mk.inj (Except.ok.inj hvalue)).2
    exact ⟨hf, _, rfl⟩

end Header

/-! ## One action -/

namespace LiveHeader

/-- The header still has the sectors that were found. -/
structure Lasts (m : Medium) (l : LiveHeader) : Prop where
  intact : l.header.Intact m
  data_eq : l.data = some (l.header.dataPointers m)
  index_eq : l.index = some (l.header.indexPointers m)

variable {l : LiveHeader} {m' : Medium}

theorem Lasts.sectors_eq (h : l.Lasts m) : l.sectors = l.header.data m ++ l.header.index m := by
  rw [sectors, h.data_eq, h.index_eq, List.map_append]
  rfl

theorem Lasts.mem_sectors {i : Nat} (h : l.Lasts m) (hi : i ∈ l.header.index m) :
    i ∈ l.sectors := by
  rw [h.sectors_eq]
  exact List.mem_append_right _ hi

theorem Lasts.congr (h : l.Lasts m) (hm : ∀ i ∈ l.header.index m, m'.get i = m.get i) :
    l.Lasts m' where
  intact := h.intact.congr hm
  data_eq := by rw [h.data_eq, Header.dataPointers_congr hm]
  index_eq := by rw [h.index_eq, Header.indexPointers_congr hm]

end LiveHeader

namespace Pool

/-- The live headers have sectors of their own, and these have been taken from the first map. -/
structure Sound (start : SectorMap) (pool : Pool) : Prop where
  tidy : pool.map.Tidy
  size_eq : pool.map.size = start.size
  covers : pool.disk.Covers start.size
  lasts : ∀ l ∈ pool.live, l.Lasts pool.disk.medium
  nodup : pool.sectors.Nodup
  bit_iff : ∀ i, pool.map.bit i = true ↔ start.bit i = true ∨ i ∈ pool.sectors
  taken : ∀ i ∈ pool.sectors, i < start.size ∧ start.bit i = false

theorem perm_sectors {live : List LiveHeader} {k : Nat} {l : LiveHeader}
    (hk : live[k]? = some l) : (live.flatMap LiveHeader.sectors).Perm
      (l.sectors ++ (live.eraseIdx k).flatMap LiveHeader.sectors) := by
  obtain ⟨hlt, rfl⟩ := List.getElem?_eq_some_iff.mp hk
  rw [← List.flatMap_cons]
  exact (List.getElem_cons_eraseIdx_perm hlt).symm.flatMap_right _

namespace Sound

variable {start map : SectorMap} {live : List LiveHeader} {m' : Medium} {q : FaultPlan}
  (h : Sound start ⟨⟨m, count, q⟩, map, live⟩)
include h

theorem not_mem_free {l : LiveHeader} (hl : l ∈ live) {i : Nat} (hi : i ∈ l.sectors) :
    i ∉ map.free := by
  intro hfree
  have hbit := (h.bit_iff i).mpr (Or.inr (List.mem_flatMap.mpr ⟨l, hl, hi⟩))
  rw [(SectorMap.mem_free.mp hfree).2] at hbit
  cases hbit

theorem not_mem_index {l l' : LiveHeader} (hl : l ∈ live) (hl' : l' ∈ live) {i : Nat}
    (hi : i ∈ l.header.data m) : i ∉ l'.header.index m := by
  intro hi'
  have hsplit := (h.lasts l hl).sectors_eq
  have hsplit' := (h.lasts l' hl').sectors_eq
  obtain ⟨hown, hothers⟩ := List.nodup_flatMap.mp h.nodup
  by_cases heq : l = l'
  · subst heq
    have hnodup := hown l hl
    rw [hsplit] at hnodup
    exact (List.nodup_append.mp hnodup).2.2 i hi i hi' rfl
  · have : Std.Symm (Function.onFun List.Disjoint LiveHeader.sectors) :=
      ⟨fun _ _ hdisjoint _ hi hi' => hdisjoint hi' hi⟩
    have hmem := (h.lasts l' hl').mem_sectors hi'
    refine hothers.forall hl hl' heq ?_ hmem
    rw [hsplit]
    exact List.mem_append_left _ hi

/-- What leaves the index blocks of all live headers alone keeps the pool sound. -/
theorem keep (hsize : m.size ≤ m'.size)
    (hm : ∀ l ∈ live, ∀ i ∈ l.header.index m, m'.get i = m.get i) (q' : FaultPlan) :
    Sound start ⟨⟨m', count, q'⟩, map, live⟩ :=
  { h with
    covers := ⟨h.covers.le_count, Nat.le_trans h.covers.le_size hsize⟩
    lasts := fun l hl => (h.lasts l hl).congr (hm l hl) }

theorem cons {header : Header} {taken : List Nat} (hintact : header.Intact m)
    (hperm : (header.data m ++ header.index m).Perm taken) (htaken : taken.Nodup)
    (hfree : ∀ i ∈ taken, i ∈ map.free) : Sound start
      ⟨⟨m, count, q⟩, map.setAll taken true, .found ⟨m, count, q⟩ header :: live⟩ := by
  have hlt : ∀ i ∈ taken, i < map.size := fun i hi => SectorMap.lt_of_mem_free (hfree i hi)
  have hfound := hintact.found_eq h.covers fun i hi =>
    h.size_eq ▸ hlt i (hperm.mem_iff.mp (List.mem_append_right _ hi))
  have hlasts : (LiveHeader.found ⟨m, count, q⟩ header).Lasts m := by
    rw [hfound]
    exact ⟨hintact, rfl, rfl⟩
  have hmem (i : Nat) : i ∈ (LiveHeader.found ⟨m, count, q⟩ header).sectors ↔ i ∈ taken := by
    rw [hlasts.sectors_eq]
    exact hperm.mem_iff
  exact {
    tidy := SectorMap.tidy_setAll h.tidy hlt true
    size_eq := (SectorMap.size_setAll ..).trans h.size_eq
    covers := h.covers
    lasts := List.forall_mem_cons.mpr ⟨hlasts, h.lasts⟩
    nodup := by
      refine List.nodup_append.mpr ⟨?_, h.nodup, ?_⟩
      · rw [hlasts.sectors_eq]
        exact hperm.nodup_iff.mpr htaken
      · rintro i hi _ hi' rfl
        obtain ⟨l, hl, hi'⟩ := List.mem_flatMap.mp hi'
        exact h.not_mem_free hl hi' (hfree i ((hmem i).mp hi))
    bit_iff := fun i => by
      have hold := h.bit_iff i
      rw [sectors] at hold ⊢
      rw [SectorMap.bit_setAll hlt, List.flatMap_cons, List.mem_append, hmem]
      by_cases hi : i ∈ taken
      · simp [hi]
      · rw [if_neg hi, hold]
        simp [hi]
    taken := fun i hi => by
      rcases List.mem_append.mp hi with hi | hi
      · have hi := (hmem i).mp hi
        refine ⟨h.size_eq ▸ hlt i hi, eq_false_of_ne_true fun hstart => ?_⟩
        have hset := (h.bit_iff i).mpr (Or.inl hstart)
        rw [(SectorMap.mem_free.mp (hfree i hi)).2] at hset
        cases hset
      · exact h.taken i hi }

theorem add {size : Nat} (hf : Header.Fits size map.free) (q' : FaultPlan) : Sound start
    ⟨⟨(Header.fillScript (sectorsFor size) map.free).medium m, count, q'⟩,
      map.setAll (map.free.take (sectorsFor size + indexBlocksFor (sectorsFor size))) true,
      .found ⟨(Header.fillScript (sectorsFor size) map.free).medium m, count, q'⟩
        (Header.planned size map.free) :: live⟩ := by
  have hheld := Script.held_medium hf.nodup_targets m
  have hget : ∀ i ∉ map.free,
      ((Header.fillScript (sectorsFor size) map.free).medium m).get i = m.get i := fun i hi =>
    Script.get_medium_of_not_mem
      (fun htarget => hi (List.mem_of_mem_take (hf.targets_subset htarget))) m
  have hold := h.keep (Script.le_size_medium (Header.fillScript (sectorsFor size) map.free) m)
    (fun l hl i hi => hget i (h.not_mem_free hl ((h.lasts l hl).mem_sectors hi))) q'
  have hperm := hf.perm_planned
  rw [← hf.data_planned hheld, ← hf.index_planned hheld] at hperm
  exact hold.cons (hf.intact_planned hheld) hperm
    ((SectorMap.nodup_free map).sublist (List.take_sublist ..)) fun i hi => List.mem_of_mem_take hi

theorem allocate (hsmall : start.size ≤ 0x80000000) (header : Header) (size : Nat) (p : FaultPlan) :
    Sound start ((Action.allocate header size).perform ⟨⟨m, count, q⟩, map, live⟩ p).2 ∧
      ∀ b, ((Action.allocate header size).perform ⟨⟨m, count, q⟩, map, live⟩ p).1
        ≠ .error (.broken b) := by
  have hmap : map.size ≤ 0x80000000 := h.size_eq ▸ hsmall
  rcases Header.allocate_cases h.tidy hmap size m count p header with
    ⟨cause, m', q', h', hact, hle, hm⟩ | ⟨hf, q', hact⟩
  · simp only [Action.perform, hact]
    refine ⟨h.keep hle (fun l hl i hi => hm i ?_) q', nofun⟩
    exact h.not_mem_free hl ((h.lasts l hl).mem_sectors hi)
  · simp only [Action.perform, hact]
    refine ⟨?_, nofun⟩
    exact h.add hf q'

section

variable {k : Nat} {l : LiveHeader} (hk : live[k]? = some l)
include hk

theorem inUse : map.InUse (l.header.data m ++ l.header.index m) := by
  have hl := h.lasts l (List.mem_of_getElem? hk)
  have hnodup := (perm_sectors hk).nodup_iff.mp h.nodup
  have hmem (i : Nat) (hi : i ∈ l.header.data m ++ l.header.index m) :
      i ∈ live.flatMap LiveHeader.sectors :=
    List.mem_flatMap.mpr ⟨l, List.mem_of_getElem? hk, hl.sectors_eq ▸ hi⟩
  rw [hl.sectors_eq] at hnodup
  exact ⟨(List.nodup_append.mp hnodup).1, fun i hi => h.size_eq ▸ (h.taken i (hmem i hi)).1,
    fun i hi => (h.bit_iff i).mpr (Or.inr (hmem i hi))⟩

theorem eraseIdx : Sound start
    ⟨⟨m, count, q⟩, map.setAll (l.header.data m ++ l.header.index m) false, live.eraseIdx k⟩ := by
  have hinUse := h.inUse hk
  have hnodup := (perm_sectors hk).nodup_iff.mp h.nodup
  have hmem (i : Nat) := (perm_sectors hk).mem_iff (a := i)
  rw [(h.lasts l (List.mem_of_getElem? hk)).sectors_eq] at hnodup hmem
  obtain ⟨-, hrest, hdisjoint⟩ := List.nodup_append.mp hnodup
  exact {
    tidy := SectorMap.tidy_setAll h.tidy hinUse.lt false
    size_eq := (SectorMap.size_setAll ..).trans h.size_eq
    covers := h.covers
    lasts := fun l hl => h.lasts l (List.mem_of_mem_eraseIdx hl)
    nodup := hrest
    bit_iff := fun i => by
      have hold := h.bit_iff i
      rw [sectors, hmem, List.mem_append] at hold
      rw [SectorMap.bit_setAll hinUse.lt]
      by_cases hi : i ∈ l.header.data m ++ l.header.index m
      · have hstart := (h.taken i ((hmem i).mpr (List.mem_append_left _ hi))).2
        have hgone : i ∉ (live.eraseIdx k).flatMap LiveHeader.sectors := fun hi' =>
          hdisjoint i hi i hi' rfl
        simp [hi, hstart, sectors, hgone]
      · rw [if_neg hi, hold, or_iff_right hi]
        rfl
    taken := fun i hi => h.taken i ((hmem i).mpr (List.mem_append_right _ hi)) }

end

theorem deallocate {k : Nat} {p : FaultPlan}
    (ha : (Action.deallocate k).Admissible ⟨⟨m, count, q⟩, map, live⟩ p) :
    Sound start ((Action.deallocate k).perform ⟨⟨m, count, q⟩, map, live⟩ p).2 ∧
      ((Action.deallocate k).perform ⟨⟨m, count, q⟩, map, live⟩ p).1 = .ok () := by
  obtain ⟨l, hk, hspares⟩ := ha
  have hk : live[k]? = some l := hk
  have hintact := (h.lasts l (List.mem_of_getElem? hk)).intact
  have hinUse := h.inUse hk
  have hindex : ∀ i ∈ l.header.index m, i < start.size := fun i hi =>
    h.size_eq ▸ hinUse.lt i (List.mem_append_right _ hi)
  have hlook : Disk.look ⟨m, count, q⟩ l.header.indexSectors
      = some (l.header.indexPointers m) :=
    hintact.follows_indexSectors.look_of_covers h.covers fun i hi =>
      hindex i (Header.double_subset_index hi)
  obtain ⟨q', hrun⟩ := (Header.follows_deallocate hintact.legible hinUse).eval_of_spares
    (hspares _ hlook) hindex h.covers.le_count h.covers.le_size
  have hact := Disk.eq_ok_of_runOn hrun
  simp only [Action.perform, hk, hact]
  exact ⟨(h.eraseIdx hk).keep (Nat.le_refl _) (fun _ _ _ _ => rfl) q', trivial⟩

theorem write {s : Nat} {bytes : Sector} {p : FaultPlan}
    (ha : (Action.write s bytes).Admissible ⟨⟨m, count, q⟩, map, live⟩ p) :
    Sound start ((Action.write s bytes).perform ⟨⟨m, count, q⟩, map, live⟩ p).2 ∧
      ∀ b, ((Action.write s bytes).perform ⟨⟨m, count, q⟩, map, live⟩ p).1
        ≠ .error (.broken b) := by
  obtain ⟨l, hl, data, hdata, hs⟩ := ha
  have hl' := h.lasts l hl
  have hlook : Disk.look ⟨m, count, q⟩ l.header.dataSectors = some (l.header.dataPointers m) := by
    refine hl'.intact.follows_dataSectors.look_of_covers h.covers fun i hi => ?_
    exact (h.taken i (List.mem_flatMap.mpr ⟨l, hl, hl'.mem_sectors hi⟩)).1
  obtain rfl := Option.some.inj (hdata.symm.trans hlook)
  have hwrite : Follows m count (Disk.writeSector s bytes) _ _ := Follows.writeSector s bytes
  rcases hwrite.cases p with hact | ⟨k, hk, e, q', hact⟩
  · have hact : Disk.writeSector s bytes ⟨m, count, p⟩
        = .ok () ⟨m.put s bytes, count, Script.plan p [.write s bytes]⟩ := hact
    simp only [Action.perform, hact]
    refine ⟨h.keep ?_ (fun l' hl' i hi => ?_) _, nofun⟩
    · rw [Medium.size_put]
      exact Nat.le_max_left ..
    · refine Medium.get_put_of_ne _ _ fun heq => ?_
      exact h.not_mem_index hl hl' (heq ▸ hs) hi
  · obtain rfl : k = 0 := by simpa using hk
    simp only [Action.perform, hact]
    exact ⟨h.keep (Nat.le_refl _) (fun _ _ _ _ => rfl) q', nofun⟩

end Sound

variable {start : SectorMap} {pool : Pool}

/-- An action keeps the live headers apart, and no action finds the map in disagreement. -/
theorem Sound.perform (h : Sound start pool) (hsmall : start.size ≤ 0x80000000) {a : Action}
    (ha : a.Admissible pool p) : Sound start (a.perform pool p).2 ∧
      (∀ b, (a.perform pool p).1 ≠ .error (.broken b)) ∧
      ∀ k, a = .deallocate k → (a.perform pool p).1 = .ok () := by
  obtain ⟨⟨m, count, q⟩, map, live⟩ := pool
  cases a with
  | allocate header size =>
    obtain ⟨hsound, hbroken⟩ := h.allocate hsmall header size p
    exact ⟨hsound, hbroken, nofun⟩
  | deallocate k =>
    obtain ⟨hsound, hok⟩ := h.deallocate ha
    exact ⟨hsound, fun b hb => absurd (hok.symm.trans hb) nofun, fun _ _ => hok⟩
  | write s bytes =>
    obtain ⟨hsound, hbroken⟩ := h.write ha
    exact ⟨hsound, hbroken, nofun⟩

/-- Any number of actions keeps the live headers apart. -/
theorem Sound.of_comes {first : Pool} (hfirst : Sound start first)
    (hsmall : start.size ≤ 0x80000000) (h : Comes first pool) : Sound start pool := by
  induction h with
  | start => exact hfirst
  | perform _ ha ih => exact (ih.perform hsmall ha).1

theorem sound_start {disk : Disk} (htidy : start.Tidy) (hdisk : disk.Covers start.size) :
    Sound start ⟨disk, start, []⟩ where
  tidy := htidy
  size_eq := rfl
  covers := hdisk
  lasts := nofun
  nodup := List.nodup_nil
  bit_iff _ := by simp [sectors]
  taken := nofun

/-! ## Actions whose answer is known -/

theorem Comes.of_eq {first pool' : Pool} {a : Action} {answer : Except Failure Unit}
    (h : Comes first pool) (hact : a.perform pool p = (answer, pool')) (ha : a.Admissible pool p) :
    Comes first pool' := by
  have hcomes := h.perform ha
  rwa [hact] at hcomes

section

variable {map : SectorMap} {live : List LiveHeader} {size : Nat} {q : FaultPlan}
  (h : Sound start ⟨⟨m, count, q⟩, map, live⟩) (hf : Header.Fits size map.free)
  (hcount : map.size = count)
include h hf hcount

theorem Sound.exists_allocate (hp : p.Faultless) (header : Header) : ∃ pool',
    (Action.allocate header size).perform ⟨⟨m, count, q⟩, map, live⟩ p = (.ok (), pool') ∧
      pool'.live.length = live.length + 1 ∧ pool'.map.size = pool'.disk.count ∧
      pool'.map.free = map.free.drop (sectorsFor size + indexBlocksFor (sectorsFor size)) := by
  have hm : sectorSize * count ≤ m.size := hcount ▸ h.size_eq ▸ h.covers.le_size
  have hlt : ∀ i ∈ map.free, i < count := fun i hi => hcount ▸ SectorMap.lt_of_mem_free hi
  have hact := Disk.eq_ok_of_runOn ((Header.follows_allocate (h := header) h.tidy hf).eval hp
    (hf.within_fillScript hlt) hm)
  simp only [Action.perform, hact]
  exact ⟨_, rfl, List.length_cons .., (SectorMap.size_setAll ..).trans hcount,
    SectorMap.free_setAll map _⟩

/-- A disk that takes no writes stops an allocation that needs an index block. -/
theorem Sound.exists_allocate_error (hindex : directPointers < sectorsFor size) (hp : p.Budgeted 0)
    (header : Header) : ∃ pool',
    (Action.allocate header size).perform ⟨⟨m, count, q⟩, map, live⟩ p
        = (.error (.refused (.device .writeFault)), pool') ∧ pool'.live = live := by
  have hm : sectorSize * count ≤ m.size := hcount ▸ h.size_eq ▸ h.covers.le_size
  have hlt : ∀ i ∈ map.free, i < count := fun i hi => hcount ▸ SectorMap.lt_of_mem_free hi
  have htargets : 0 < (Header.fillScript (sectorsFor size) map.free).targets.length := by
    rw [Header.fillScript, if_neg (Nat.not_le.mpr hindex)]
    exact Nat.zero_lt_succ _
  obtain ⟨k, q', -, hplay⟩ := Script.play_of_budgeted hp htargets (hf.within_fillScript hlt) hm
  have hrun : Disk.runOn ⟨map, header⟩ (Header.allocate size) ⟨m, count, p⟩ = _ :=
    Header.follows_allocate h.tidy hf p
  rw [bind_apply, hplay] at hrun
  obtain ⟨v, hact⟩ := Disk.exists_of_runOn_error hrun
  simp only [Action.perform, hact]
  exact ⟨_, rfl, rfl⟩

end

end Pool

/--
**Live headers stay apart.** From one map of up to `2 ^ 31` sectors, whose bits past the last sector
are not set, and on a disk that has these sectors, headers are allocated and deallocated and their
data sectors are written, in any order and with any writes failing. At any time the data sectors
and index blocks of the live headers are the ones that were found right after each was allocated; no
sector is among them twice; the map marks them and what it marked at first, and nothing else; and no
action finds the map in disagreement with a header.
-/
theorem live_headers_stay_apart {disk : Disk} {map : SectorMap} (htidy : map.Tidy)
    (hsize : map.size ≤ 0x80000000) (hdisk : disk.Covers map.size) {pool : Pool}
    (h : Pool.Comes ⟨disk, map, []⟩ pool) :
    (∀ l ∈ pool.live, ∃ data index, l = ⟨l.header, some data, some index⟩ ∧
      pool.disk.look l.header.dataSectors = some data ∧
      pool.disk.look l.header.indexSectors = some index) ∧
    pool.sectors.Nodup ∧
    (∀ i, pool.map.bit i = true ↔ map.bit i = true ∨ i ∈ pool.sectors) ∧
    (∀ i ∈ pool.sectors, map.bit i = false) ∧
    ∀ (p : FaultPlan) (a : Pool.Action), a.Admissible pool p →
      (∀ b, (a.perform pool p).1 ≠ .error (.broken b)) ∧
      ∀ k, a = .deallocate k → (a.perform pool p).1 = .ok () := by
  have hsound := (Pool.sound_start htidy hdisk).of_comes hsize h
  refine ⟨fun l hl => ?_, hsound.nodup, hsound.bit_iff, fun i hi => (hsound.taken i hi).2,
    fun p a ha => (hsound.perform hsize ha).2⟩
  have hlasts := hsound.lasts l hl
  have hindex : ∀ i ∈ l.header.index pool.disk.medium, i < map.size := fun i hi =>
    (hsound.taken i (List.mem_flatMap.mpr ⟨l, hl, hlasts.mem_sectors hi⟩)).1
  refine ⟨_, _, ?_, hlasts.intact.follows_dataSectors.look_of_covers hsound.covers hindex,
    hlasts.intact.follows_indexSectors.look_of_covers hsound.covers fun i hi =>
      hindex i (Header.double_subset_index hi)⟩
  rw [← hlasts.data_eq, ← hlasts.index_eq]

/-- Two files are allocated, the disk stops a third one at its index block, and the second is given
back. -/
theorem live_headers_stay_apart_two : ∃ (disk : Disk) (pool failed : Pool),
    (SectorMap.empty 64).Tidy ∧ (SectorMap.empty 64).size ≤ 0x80000000 ∧
    disk.Covers (SectorMap.empty 64).size ∧ Pool.Comes ⟨disk, .empty 64, []⟩ pool ∧
    (Pool.Action.allocate .empty 3712).perform pool { budget := some 0 }
      = (.error (.refused (.device .writeFault)), failed) ∧
    Pool.Comes ⟨disk, .empty 64, []⟩ failed ∧ failed.live.length = 2 ∧ failed.sectors.Nodup ∧
    ((Pool.Action.deallocate 0).perform failed {}).1 = .ok () ∧
    ((Pool.Action.deallocate 0).perform failed {}).2.sectors.Nodup := by
  obtain ⟨m, hm⟩ : ∃ m : Medium, sectorSize * 64 ≤ m.size :=
    ⟨.replicate (sectorSize * 64) 0, Nat.le_of_eq (Medium.size_replicate ..).symm⟩
  have htidy : (SectorMap.empty 64).Tidy := fun i _ => SectorMap.bit_empty 64 i
  have hfree : (SectorMap.empty 64).free = List.range 64 := by decide
  have hdisk : (⟨m, 64, {}⟩ : Disk).Covers 64 := ⟨Nat.le_refl 64, hm⟩
  have hsound {pool : Pool} (h : Pool.Comes ⟨⟨m, 64, {}⟩, .empty 64, []⟩ pool) :
      Pool.Sound (.empty 64) pool := (Pool.sound_start htidy hdisk).of_comes (by decide) h
  have hsmall : Header.Fits 1 (List.range 64) := ⟨by decide, by decide, by decide, by decide⟩
  have hlarge : Header.Fits 3712 ((List.range 64).drop 1) :=
    ⟨by decide, by decide, by decide, by decide⟩
  have hlarge' : Header.Fits 3712 ((List.range 64).drop 31) :=
    ⟨by decide, by decide, by decide, by decide⟩
  -- the two files
  obtain ⟨one, hone, honelive, honesize, honefree⟩ := (hsound .start).exists_allocate
    (hfree.symm ▸ hsmall) rfl FaultPlan.faultless_default .empty
  have hcomes := Pool.Comes.start.of_eq hone trivial
  rw [hfree] at honefree
  obtain ⟨two, htwo, htwolive, htwosize, htwofree⟩ := (hsound hcomes).exists_allocate
    (honefree.symm ▸ hlarge) honesize FaultPlan.faultless_default .empty
  have hcomes := hcomes.of_eq htwo trivial
  -- the one that fails
  rw [honefree, List.drop_drop] at htwofree
  obtain ⟨failed, hfailed, hlive⟩ := (hsound hcomes).exists_allocate_error
    (htwofree.symm ▸ hlarge') htwosize (by decide) (FaultPlan.budgeted_default 0) .empty
  have hcomes' := hcomes.of_eq hfailed trivial
  have hlength : failed.live.length = 2 := by
    rw [hlive, htwolive, honelive]
    rfl
  obtain ⟨-, hnodup, -, -, hacts⟩ := live_headers_stay_apart htidy (by decide) hdisk hcomes'
  have hrelease : (Pool.Action.deallocate 0).Admissible failed {} :=
    ⟨_, List.getElem?_eq_getElem (hlength ▸ Nat.zero_lt_two), fun index _ =>
      FaultPlan.faultless_default.toReadable.spares _⟩
  obtain ⟨-, hnodup', -, -, -⟩ := live_headers_stay_apart htidy (by decide) hdisk
    (hcomes'.perform hrelease)
  exact ⟨⟨m, 64, {}⟩, two, failed, htidy, by decide, hdisk, hcomes, hfailed, hcomes', hlength,
    hnodup, (hacts {} _ hrelease).2 0 rfl, hnodup'⟩

end IndexedDisk
