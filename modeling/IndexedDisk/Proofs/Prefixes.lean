import IndexedDisk.Proofs.Reading
import IndexedDisk.Proofs.Requests
import IndexedDisk.Proofs.Transfers

/-!
# Transfers that fail

A transfer takes its spans in order and moves the bytes of a span in one step, after all that has to
be read for it. Whatever fails, and whenever it does, what has been moved by then are whole spans
from the start on, and these are the spans of a shorter range.

* `exists_take_spans`: the first spans of a range are those of a range that ends where a span would
  have started.
* `medium_take_writeScript`: a write that is stopped leaves what the write of fewer bytes leaves.
* `Intact.exists_of_readSpans_error`: a read that is stopped leaves the pieces that it came to.
* `failed_transfers_move_prefixes`: what is left of a transfer that fails.
* `stopped_writes_overlap`: the same where one pointer stands for two sectors.
-/

namespace IndexedDisk

/-! ## Ranges that are cut short -/

/-- The first spans of a range are the spans of a range that ends at its start or at a sector
boundary. -/
theorem exists_take_spans (start stop : Nat) : ∀ k < (spans start stop).length,
    ∃ j, (j = start ∨ start < j ∧ j % sectorSize = 0) ∧ start ≤ j ∧ j < stop ∧
      (spans start stop).take k = spans start j := by
  fun_induction spans start stop with
  | case1 start hlt length ih =>
    have hl : length = min (stop - start) (128 - start % 128) := rfl
    intro k hk
    cases k with
    | zero => exact ⟨start, Or.inl rfl, Nat.le_refl _, hlt, (spans_of_le (Nat.le_refl _)).symm⟩
    | succ k =>
      obtain ⟨j, hj, hle, hlt', htake⟩ := ih k (by simpa using hk)
      -- a span follows, so that this one reaches to the end of its sector
      have hlength : min (j - start) (sectorSize - start % sectorSize) = length := by
        simp only [sectorSize]
        omega
      refine ⟨j, Or.inr ?_, by omega, hlt', ?_⟩
      · simp only [sectorSize] at *
        omega
      · rw [List.take_succ_cons, htake, spans.eq_1 start j, if_pos (by omega)]
        dsimp only
        rw [hlength]
  | case2 => exact fun k hk => absurd hk (Nat.not_lt_zero k)

namespace Script

/-- Of scripts in a row, each with its reads before its only write, a part does what the scripts do
that it has whole. -/
theorem medium_take_flatMap {α : Type} {g : α → Script}
    (hg : ∀ a, ∃ sectors t, g a = reads sectors ++ [t]) (l : List α) (m : Medium) {k : Nat}
    (hk : k < (l.flatMap g).length) :
    ∃ i < l.length, medium m ((l.flatMap g).take k) = medium m ((l.take i).flatMap g) := by
  induction l generalizing m k with
  | nil => cases hk
  | cons a l ih =>
    rw [List.flatMap_cons, List.length_append] at hk
    rw [List.flatMap_cons, List.take_append, medium_append]
    by_cases hpart : k < (g a).length
    · refine ⟨0, Nat.zero_lt_succ _, ?_⟩
      obtain ⟨sectors, t, ha⟩ := hg a
      rw [ha, List.length_append, List.length_singleton] at hpart
      rw [Nat.sub_eq_zero_of_le (by rw [ha]; simp; omega), ha,
        List.take_append_of_le_length (by omega), ← reads_take, medium_reads]
      rfl
    · have hwhole : (g a).take k = g a := List.take_of_length_le (by omega)
      obtain ⟨i, hi, hmedium⟩ := ih (medium m (g a)) (k := k - (g a).length) (by omega)
      refine ⟨i + 1, Nat.succ_lt_succ hi, ?_⟩
      rw [hwhole, hmedium, List.take_succ_cons, List.flatMap_cons, medium_append]

end Script

theorem eq_error_of_map {ε σ α β : Type} {act : EStateM ε σ α} {g : α → β} {s s' : σ} {e : ε}
    (h : (do return g (← act) : EStateM ε σ β) s = .error e s') : act s = .error e s' := by
  rw [bind_apply] at h
  cases hact : act s with
  | ok a t =>
    rw [hact] at h
    cases h
  | error e t =>
    rw [hact] at h
    cases h
    rfl

namespace Disk

variable {ρ α : Type} {v : ρ} {cause : Failure}

theorem value_of_lift_bind_error {β : Type} {act : DiskM α} {g : α → Disk.WithM ρ β} {disk : Disk}
    {held : Disk.With ρ} (hg : ∀ a disk' held, g a ⟨disk', v⟩ = .error cause held → held.value = v)
    (h : (liftM act >>= g) ⟨disk, v⟩ = .error cause held) : held.value = v := by
  rw [bind_apply] at h
  simp only [liftM, monadLift, MonadLift.monadLift] at h
  cases hact : act disk with
  | ok a disk' =>
    rw [hact] at h
    exact hg a disk' held h
  | error e disk' =>
    rw [hact] at h
    cases h
    rfl

end Disk

/-- The buffer is changed last, when nothing can fail any more. -/
theorem OpenFile.value_of_readSpan_error {f : OpenFile} {position : Nat} {span : Span}
    {disk : Disk} {buffer : Array UInt8} {cause : Failure} {held : Disk.With (Array UInt8)}
    (h : f.readSpan position span ⟨disk, buffer⟩ = .error cause held) : held.value = buffer := by
  refine Disk.value_of_lift_bind_error (fun sector disk held h => ?_) h
  exact Disk.value_of_lift_bind_error (fun bytes disk held h => by cases h) h

namespace Header

variable {m : Medium} {h : Header} {position : Nat} {data : Array UInt8}

theorem writeScript_extract {j : Nat} (hj : position ≤ j)
    (hstop : j ≤ min (position + data.size) h.length) :
    h.writeScript m position (data.extract 0 (j - position))
      = (spans position j).flatMap (h.spanScript m position data) := by
  have hmin : min (position + (data.extract 0 (j - position)).size) h.length = j := by
    rw [Array.size_extract]
    omega
  rw [writeScript, hmin, List.flatMap_def, List.flatMap_def]
  refine congrArg List.flatten (List.map_congr_left fun span hspan => ?_)
  have := bounds_of_mem_spans hspan
  have hpiece : (data.extract 0 (j - position)).extract (span.offset - position)
      (span.offset - position + span.length)
      = data.extract (span.offset - position) (span.offset - position + span.length) := by
    rw [Array.extract_extract]
    congr 1 <;> omega
  rw [spanScript, spanScript, hpiece]

/-- A write that is stopped leaves what the write of fewer bytes leaves. -/
theorem medium_take_writeScript {k : Nat} (hk : k < (h.writeScript m position data).length) :
    ∃ j, (j = position ∨ position < j ∧ j % sectorSize = 0) ∧ position ≤ j ∧
      j < min (position + data.size) h.length ∧
      Script.medium m ((h.writeScript m position data).take k)
        = (h.writeScript m position (data.extract 0 (j - position))).medium m := by
  obtain ⟨i, hi, hmedium⟩ := Script.medium_take_flatMap
    (g := h.spanScript m position data) (fun span => ⟨_, _, rfl⟩) _ m hk
  obtain ⟨j, hj, hle, hlt, htake⟩ := exists_take_spans _ _ i hi
  refine ⟨j, hj, hle, hlt, ?_⟩
  rw [writeScript_extract hle (Nat.le_of_lt hlt), ← htake]
  exact hmedium

/-! ## Reads that are stopped -/

theorem size_foldl_pieces (m : Medium) (h : Header) (position : Nat) (spans : List Span)
    (buffer : Array UInt8) :
    (spans.foldl (fun b span => Bytes.overlay b (span.offset - position) (h.piece m span))
      buffer).size = buffer.size := by
  induction spans generalizing buffer with
  | nil => rfl
  | cons span spans ih => rw [List.foldl_cons, ih, Bytes.size_overlay]

namespace Intact

variable {f : OpenFile} {count : Nat} {p : FaultPlan} (hh : f.header.Intact m)
include hh

theorem readSpan_cases {span : Span} (hlen : span.offset < f.header.length)
    (hspan : span.start + span.length ≤ sectorSize) (position : Nat) (p : FaultPlan)
    (buffer : Array UInt8) :
    (∃ q, f.readSpan position span ⟨⟨m, count, p⟩, buffer⟩ = .ok () ⟨⟨m, count, q⟩,
      Bytes.overlay buffer (span.offset - position) (f.header.piece m span)⟩) ∨
    ∃ e q, f.readSpan position span ⟨⟨m, count, p⟩, buffer⟩
      = .error (.refused (.device e)) ⟨⟨m, count, q⟩, buffer⟩ := by
  have hfollows : Follows m count (Disk.runOn buffer (f.readSpan position span)) _ _ :=
    hh.follows_readSpan hlen hspan buffer
  rcases hfollows.cases p with hact | ⟨k, -, e, q, hact⟩
  · left
    rw [readScript, Script.medium_reads] at hact
    exact ⟨_, Disk.eq_ok_of_runOn hact⟩
  · right
    rw [readScript, ← Script.reads_take, Script.medium_reads] at hact
    refine ⟨e, q, ?_⟩
    obtain ⟨buffer', hact'⟩ := Disk.exists_of_runOn_error hact
    obtain rfl : buffer' = buffer := f.value_of_readSpan_error hact'
    exact hact'

/-- A read of spans that fails has left the pieces of the first ones in the buffer. -/
theorem exists_of_readSpans_error {spans : List Span}
    (hlen : ∀ span ∈ spans, span.offset < f.header.length)
    (hspan : ∀ span ∈ spans, span.start + span.length ≤ sectorSize) {position : Nat}
    {buffer : Array UInt8} {cause : Failure} {held : Disk.With (Array UInt8)}
    (hact : f.readSpans position spans ⟨⟨m, count, p⟩, buffer⟩ = .error cause held) :
    ∃ i < spans.length, ∃ e q, cause = .refused (.device e) ∧ held = ⟨⟨m, count, q⟩,
      (spans.take i).foldl (fun b span =>
        Bytes.overlay b (span.offset - position) (f.header.piece m span)) buffer⟩ := by
  induction spans generalizing p buffer with
  | nil => cases hact
  | cons span spans ih =>
    obtain ⟨hlen', hlen⟩ := List.forall_mem_cons.mp hlen
    obtain ⟨hspan', hspan⟩ := List.forall_mem_cons.mp hspan
    rw [OpenFile.readSpans, bind_apply] at hact
    rcases hh.readSpan_cases hlen' hspan' position p buffer with ⟨q, hfirst⟩ | ⟨e, q, hfirst⟩
    · rw [hfirst] at hact
      obtain ⟨i, hi, e, q, hcause, hheld⟩ := ih hlen hspan hact
      exact ⟨i + 1, Nat.succ_lt_succ hi, e, q, hcause, hheld⟩
    · rw [hfirst] at hact
      cases hact
      exact ⟨0, Nat.zero_lt_succ _, e, q, rfl, rfl⟩

end Intact

end Header

namespace OpenFile

/--
Where a transfer of `count` bytes can have been stopped: at its start, or at a sector boundary in
its range.
-/
def StopsAt (f : OpenFile) (position count j : Nat) : Prop :=
  (j = position ∨ position < j ∧ j % sectorSize = 0) ∧ j < position + f.moved position count

/--
The disk after a write that was stopped at `j`: up to there the file holds the data, and no other
byte has changed.
-/
structure WrittenTo (f : OpenFile) (position : Nat) (data : Array UInt8) (disk disk' : Disk)
    (j : Nat) : Prop where
  inside : ∀ o, position ≤ o → o < j →
    (f.header.contents disk'.medium)[o]? = data[o - position]?
  outside : ∀ o, o < position ∨ j ≤ o →
    (f.header.contents disk'.medium)[o]? = (f.header.contents disk.medium)[o]?
  byteAt_eq : ∀ a, (∀ o, position ≤ o → o < j → a ≠ f.header.address disk.medium o) →
    disk'.medium.byteAt a = disk.medium.byteAt a
  size_eq : (∀ s ∈ f.header.data disk.medium, sectorSize * (s + 1) ≤ disk.medium.size) →
    disk'.medium.size = disk.medium.size
  count_eq : disk'.count = disk.count

/--
The buffer after a read that was stopped at `j`: up to there it holds the contents, and behind that
what it held before.
-/
structure FilledTo (f : OpenFile) (position : Nat) (buffer buffer' : Array UInt8)
    (disk disk' : Disk) (j : Nat) : Prop where
  size_eq : buffer'.size = buffer.size
  inside : ∀ o, position ≤ o → o < j →
    buffer'[o - position]? = (f.header.contents disk.medium)[o]?
  outside : ∀ i, j ≤ position + i → buffer'[i]? = buffer[i]?
  medium_eq : disk'.medium = disk.medium
  count_eq : disk'.count = disk.count

variable {m : Medium} {count : Nat} {p : FaultPlan} {f : OpenFile} {position : Nat}
  {cause : Failure}

theorem exists_stop_of_writeAt_error (hh : f.header.Intact m) (hsep : f.header.Separate m)
    {data : Array UInt8} (hb : f.InBounds position data.size) {disk' : Disk}
    (hact : f.writeAt position data ⟨m, count, p⟩ = .error cause disk') :
    (∃ e, cause = .refused (.device e)) ∧ ∃ j, f.StopsAt position data.size j ∧
      f.WrittenTo position data ⟨m, count, p⟩ disk' j := by
  have hfollows : Follows m count (f.writeAt position data) _ _ :=
    hh.follows_writeAt hsep position data hb.bound
  rcases hfollows.cases p with hdone | ⟨k, hk, e, q, hfailed⟩
  · rw [hdone] at hact
    cases hact
  rw [hfailed] at hact
  cases hact
  obtain ⟨j, hj, hle, hlt, hmedium⟩ := Header.medium_take_writeScript hk
  have hmoved := f.moved_eq position data.size
  refine ⟨⟨e, rfl⟩, j, ⟨hj, by omega⟩, ?_⟩
  rw [hmedium]
  have hcontents := Header.contents_writeScript position (data.extract 0 (j - position)) hh hsep
  have hsize : (data.extract 0 (j - position)).size = j - position := by
    rw [Array.size_extract]
    omega
  exact {
    inside := fun o ho hoj => by
      rw [hcontents, Bytes.getElem?_overlay, Header.size_contents, if_pos (by omega),
        Array.getElem?_extract, Nat.zero_add, if_pos (by omega)]
    outside := fun o ho => by
      rw [hcontents, Bytes.getElem?_overlay, if_neg (by omega)]
    byteAt_eq := fun a ha => Header.byteAt_writeScript position _ hh hsep fun o ho hoj =>
      ha o ho (by omega)
    size_eq := fun hcovered => Script.size_medium_of_covered fun s hs =>
      hcovered s (Header.targets_writeScript_subset position _ hh hs)
    count_eq := rfl }

theorem exists_stop_of_readAt_error (hh : f.header.Intact m) {buffer : Array UInt8}
    (hb : f.InBounds position buffer.size) {held : Disk.With (Array UInt8)}
    (hact : f.readAt position ⟨⟨m, count, p⟩, buffer⟩ = .error cause held) :
    (∃ e, cause = .refused (.device e)) ∧ ∃ j, f.StopsAt position buffer.size j ∧
      f.FilledTo position buffer held.value ⟨m, count, p⟩ held.disk j := by
  have hact : (do
      if f.length ≤ position ∨ buffer.size = 0 then pure 0
      else do
        let stop ← f.stop position buffer.size
        f.readSpans position (spans position stop)
        return stop - position : Disk.WithM (Array UInt8) Nat) ⟨⟨m, count, p⟩, buffer⟩
      = .error cause held := hact
  by_cases hskip : f.length ≤ position ∨ buffer.size = 0
  · rw [if_pos hskip] at hact
    cases hact
  rw [if_neg hskip] at hact
  rw [not_or] at hskip
  have hstop : f.stop position buffer.size = .ok (min (position + buffer.size) f.length) :=
    if_pos (hb.sum (Nat.lt_of_not_le hskip.1))
  rw [hstop] at hact
  have hact : (do
      f.readSpans position (spans position (min (position + buffer.size) f.length))
      return min (position + buffer.size) f.length - position : Disk.WithM (Array UInt8) Nat)
      ⟨⟨m, count, p⟩, buffer⟩ = .error cause held := hact
  have hlength : f.header.length = f.length := rfl
  obtain ⟨i, hi, e, q, rfl, rfl⟩ := hh.exists_of_readSpans_error (fun span hspan => by
    have := hb.file span hspan
    have := bounds_of_mem_spans hspan
    omega) hb.sector (eq_error_of_map hact)
  obtain ⟨j, hj, hle, hlt, htake⟩ := exists_take_spans _ _ i hi
  have hmoved := f.moved_eq position buffer.size
  refine ⟨⟨e, rfl⟩, j, ⟨hj, by omega⟩, ?_⟩
  rw [htake]
  have hbuffer := Header.foldl_pieces m f.header position position j (Nat.le_refl _) buffer
  exact {
    size_eq := Header.size_foldl_pieces ..
    inside := fun o ho hoj => by
      have heq : position + (o - position) = o := by omega
      rw [hbuffer, heq, if_pos (by omega), Header.getElem?_contents, if_pos (by omega)]
    outside := fun i hi => by rw [hbuffer, if_neg (by omega)]
    medium_eq := rfl
    count_eq := rfl }

/--
**A failed transfer is a clean prefix.** Let a file be open whose header was made by an allocation, of
sectors whose numbers fit in pointers, and whose index blocks are as they were written then, on a
disk that may show any faults. If a transfer from the position of the file on fails, then because of
the disk. A write has then stopped at its start or at a sector boundary inside its range: up to there
the file holds the data, and every other byte of the medium, those of the file from there on among
them, is as it was. A read has put the contents up to such a place into the buffer, which behind it is
as it was, and the medium has not changed at all. Under an id, a transfer that fails leaves all open
files as they are, with their positions.
-/
theorem failed_transfers_move_prefixes {disk : Disk} {f : OpenFile} {map : SectorMap} {size : Nat}
    (hf : f.header.Allocated map size disk.medium) (hsmall : map.Addressable size)
    {buffer : Array UInt8} (hbuffer : buffer.size ≤ maxRoom) :
    (∀ cause disk', f.write buffer disk = .error cause disk' →
      (∃ e, cause = .refused (.device e)) ∧ ∃ j, f.StopsAt f.position buffer.size j ∧
        f.WrittenTo f.position buffer disk disk' j) ∧
    (∀ cause held, f.read ⟨disk, buffer⟩ = .error cause held →
      (∃ e, cause = .refused (.device e)) ∧ ∃ j, f.StopsAt f.position buffer.size j ∧
        f.FilledTo f.position buffer held.value disk held.disk j) ∧
    ∀ (fs : FileSystem) (id : Int32), fs.disk = disk → fs.opened.find? id = some f →
      (∀ cause fs', FileSystem.write id buffer fs = .error cause fs' →
        fs'.opened = fs.opened ∧ f.write buffer disk = .error cause fs'.disk) ∧
      ∀ cause fs', FileSystem.read id buffer fs = .error cause fs' →
        fs'.opened = fs.opened ∧
          ∃ buffer', f.read ⟨disk, buffer⟩ = .error cause ⟨fs'.disk, buffer'⟩ := by
  have hh := hf.intact hsmall
  have hb := inBounds hh f.position hbuffer
  refine ⟨fun cause disk' hact => ?_, fun cause held hact => ?_, ?_⟩
  · exact exists_stop_of_writeAt_error hh (hf.separate hsmall) hb (eq_error_of_map hact)
  · exact exists_stop_of_readAt_error hh hb (eq_error_of_map hact)
  · rintro ⟨_, v, t⟩ id rfl hfind
    refine ⟨fun cause fs' hact => ?_, fun cause fs' hact => ?_⟩
    · rw [FileSystem.write_eq hfind] at hact
      obtain ⟨disk', hwrite, rfl⟩ :=
        FileSystem.exists_of_lift_bind_error (fun _ _ => ⟨_, _, rfl⟩) hact
      exact ⟨rfl, hwrite⟩
    · rw [FileSystem.read_eq hfind] at hact
      obtain ⟨disk', hread, rfl⟩ :=
        FileSystem.exists_of_lift_bind_error (fun _ _ => ⟨_, _, rfl⟩) hact
      exact ⟨rfl, Disk.exists_of_runOn_error hread⟩

/-- A disk that takes one write stops a write of three spans at the second. -/
theorem failed_transfers_move_prefixes_second : ∃ (disk : Disk) (f : OpenFile)
    (data : Array UInt8) (cause : Failure) (disk' : Disk) (j : Nat),
    f.header.Allocated (.empty 64) 7552 disk.medium ∧ (SectorMap.empty 64).Addressable 7552 ∧
    data.size ≤ maxRoom ∧
    f.write data disk = .error cause disk' ∧ f.position = 100 ∧ data.size = 200 ∧
    f.StopsAt 100 200 j ∧ f.WrittenTo 100 data disk disk' j := by
  obtain ⟨m, h, hf, hh, hsep, hlength, hlt, hsize⟩ :=
    Header.exists_allocated 7552 64 (by decide) (by decide) (by decide)
  have hsmall : (SectorMap.empty 64).Addressable 7552 :=
    SectorMap.addressable_of_size_le (by decide) _
  obtain ⟨f, rfl, hposition⟩ : ∃ f : OpenFile, f.header = h ∧ f.position = 100 :=
    ⟨{ sector := 0, header := h, position := 100 }, rfl, rfl⟩
  obtain ⟨data, hdata⟩ : ∃ data : Array UInt8, data.size = 200 :=
    ⟨.replicate 200 7, Array.size_replicate ..⟩
  have hbuffer : data.size ≤ maxRoom := hdata ▸ (by decide)
  have htargets : 1 < (f.header.writeScript m f.position data).targets.length := by
    have hfirst : spans 100 300 = ⟨100, 28⟩ :: spans 128 300 := by
      rw [spans, if_pos (by decide)]
      rfl
    have hsecond : spans 128 300 = ⟨128, 128⟩ :: spans 256 300 := by
      rw [spans, if_pos (by decide)]
      rfl
    have hmin : min (100 + 200) 7552 = 300 := rfl
    rw [Header.targets_writeScript, List.length_map, hlength, hdata, hposition, hmin, hfirst,
      hsecond, List.length_cons, List.length_cons]
    omega
  have hwithin : (f.header.writeScript m f.position data).Within 64 := fun t ht =>
    hlt _ (Header.mem_writeScript f.position data hh ht)
  obtain ⟨k, q, -, hplay⟩ := Script.play_of_budgeted (FaultPlan.budgeted_default 1) htargets
    hwithin hsize
  have hfollows : Follows m 64 (f.writeAt f.position data) _ _ :=
    hh.follows_writeAt hsep f.position data (inBounds hh f.position hbuffer).bound
  obtain ⟨disk', hact⟩ : ∃ disk', f.writeAt f.position data ⟨m, 64, { budget := some 1 }⟩
      = .error (.refused (.device .writeFault)) disk' :=
    ⟨_, by rw [hfollows, bind_apply, hplay]⟩
  have hwrite : f.write data ⟨m, 64, { budget := some 1 }⟩
      = .error (.refused (.device .writeFault)) disk' := by
    rw [write, bind_apply, hact]
  obtain ⟨-, j, hj, hwritten⟩ := (@failed_transfers_move_prefixes ⟨m, 64, { budget := some 1 }⟩ f _ _
    hf hsmall data hbuffer).1 _ _ hwrite
  rw [hposition] at hj hwritten
  rw [hdata] at hj
  exact ⟨⟨m, 64, { budget := some 1 }⟩, f, data, _, disk', j, hf, hsmall, hbuffer, hwrite, hposition,
    hdata, hj, hwritten⟩

/-- A direct sector that is written as a whole is not read first. -/
theorem exists_follows_writeSpan {m : Medium} {k : Nat} {f : OpenFile} {data : Array UInt8}
    (count : Nat) (hh : f.header.Intact m) (hk : k < directPointers)
    (hlength : sectorSize * k < f.header.length) (hdata : sectorSize * (k + 1) ≤ data.size) :
    ∃ bytes : Sector, (∀ i (hi : i < 128), some bytes[i] = data[sectorSize * k + i]?) ∧
      Follows m count (f.writeSpan 0 data ⟨sectorSize * k, sectorSize⟩)
        [.write (f.header.sectorAt m k) bytes] (.ok ()) := by
  have hstart : Span.start ⟨sectorSize * k, sectorSize⟩ = 0 := Nat.mul_mod_right ..
  have hdiv : sectorSize * k / sectorSize = k := Nat.mul_div_cancel_left k (by decide)
  have hwrite : Follows m count (f.writeSpan 0 data ⟨sectorSize * k, sectorSize⟩) _ (.ok ()) :=
    hh.follows_writeSpan (fun _ _ => rfl) hlength
      (by rw [hstart]; exact Nat.le_of_eq (Nat.zero_add _)) hdata rfl
  rw [Header.spanScript, hstart, Header.route] at hwrite
  dsimp only at hwrite
  rw [hdiv, if_pos hk, if_neg (Nat.lt_irrefl _)] at hwrite
  refine ⟨_, fun i hi => ?_, hwrite⟩
  simp only [sectorSize] at hdata ⊢
  have hsize : (data.extract (128 * k - 0) (128 * k - 0 + 128)).size = 128 := by
    rw [Array.size_extract]
    omega
  rw [Sector.getElem_patch _ _ _ hi, dif_pos (by omega), Array.getElem_extract,
    Array.getElem?_eq_getElem (by omega)]
  rfl

section Overlapping

variable {m : Medium} {f : OpenFile} {data : Array UInt8}
  (hh : ∀ m', f.header.Intact m' ∧ f.header.dataPointers m' = [5, 5])
  (hlength : f.header.length = 256) (hsize : data.size = 256)
include hh hlength hsize

theorem exists_follows_writeSpan_overlapping {k : Nat} (hk : k < 2) : ∃ bytes : Sector,
    some bytes[0] = data[sectorSize * k]? ∧ Follows m 6
      (f.writeSpan 0 data ⟨sectorSize * k, sectorSize⟩) [.write 5 bytes] (.ok ()) := by
  have hsector : f.header.sectorAt m k = 5 := by
    rw [Header.sectorAt, Header.pointerAt, (hh m).2]
    obtain rfl | rfl : k = 0 ∨ k = 1 := by omega
    · rfl
    · rfl
  obtain ⟨bytes, hbytes, hfollows⟩ := exists_follows_writeSpan 6
    (hh m).1 (show k < directPointers by simp only [directPointers]; omega)
    (by rw [hlength]; simp only [sectorSize]; omega)
    (show sectorSize * (k + 1) ≤ data.size by rw [hsize]; simp only [sectorSize]; omega)
  rw [hsector] at hfollows
  exact ⟨bytes, hbytes 0 (by decide), hfollows⟩

theorem exists_follows_writeAt_overlapping : ∃ first second : Sector,
    some first[0] = data[0]? ∧
      Follows m 6 (f.writeAt 0 data) [.write 5 first, .write 5 second] (.ok 256) := by
  have hspans : spans 0 256 = [⟨sectorSize * 0, sectorSize⟩, ⟨sectorSize * 1, sectorSize⟩] := by
    have hfirst : spans 0 256 = ⟨0, 128⟩ :: spans 128 256 := by
      rw [spans, if_pos (by decide)]
      rfl
    have hsecond : spans 128 256 = ⟨128, 128⟩ :: spans 256 256 := by
      rw [spans, if_pos (by decide)]
      rfl
    rw [hfirst, hsecond, spans_of_le (Nat.le_refl _)]
    rfl
  have hstop : f.stop 0 data.size = .ok 256 := by
    rw [stop, if_pos (by omega), length, hlength, hsize]
    rfl
  obtain ⟨first, hbytes, hfirst⟩ :=
    exists_follows_writeSpan_overlapping (m := m) hh hlength hsize (by decide : 0 < 2)
  obtain ⟨second, -, hsecond⟩ :=
    exists_follows_writeSpan_overlapping (m := m.put 5 first) hh hlength hsize (by decide : 1 < 2)
  refine ⟨first, second, hbytes, ?_⟩
  rw [writeAt, if_neg (by rw [length]; omega)]
  refine Follows.ok_bind hstop ?_
  rw [hspans]
  exact Follows.bind_nil (Follows.bind hfirst (Follows.bind hsecond (Follows.pure ())))
    (Follows.pure _)

/-- A disk that takes one write gets the first half of what is written to a file whose two sectors
are the same. -/
theorem exists_write_overlapping (hposition : f.position = 0) :
    ∃ (bytes : Sector) (p : FaultPlan), some bytes[0] = data[0]? ∧
      f.write data ⟨m, 6, { budget := some 1 }⟩
        = .error (.refused (.device .writeFault)) ⟨m.put 5 bytes, 6, p⟩ := by
  obtain ⟨first, second, hbytes, hwrite⟩ :=
    exists_follows_writeAt_overlapping (m := m) hh hlength hsize
  have hp := FaultPlan.budgeted_default 1
  have hact := hwrite { budget := some 1 }
  simp only [bind_apply, Script.play, Script.run_write (hp.writeFails 5) (by decide : 5 < 6),
    Script.run_write_error (hp.afterWrite.writeFails 5)] at hact
  exact ⟨first, _, hbytes, by rw [write, bind_apply, hposition, hact]⟩

end Overlapping

/--
Where both halves of a file are one sector, a write that is stopped after the first half has changed
the second half as well.
-/
theorem stopped_writes_overlap : ∃ (disk : Disk) (f : OpenFile) (data : Array UInt8)
    (cause : Failure) (disk' : Disk),
    f.header.Allocated (.fullBut 0x100000006 [5, 0x100000005]) 256 disk.medium ∧
    data.size = 256 ∧ f.position = 0 ∧ f.write data disk = .error cause disk' ∧
    ¬ ∃ j, f.StopsAt 0 256 j ∧ f.WrittenTo 0 data disk disk' j := by
  obtain ⟨m, hold⟩ : ∃ m : Medium, m.byteAt 640 ≠ 1 := by
    refine ⟨.replicate 0 0, ?_⟩
    rw [Medium.byteAt_eq, Medium.replicate, Array.getElem?_replicate, if_neg (by decide)]
    decide
  obtain ⟨h, hf, hlength, hh⟩ := Header.exists_overlapping m
  obtain ⟨f, rfl, hposition⟩ : ∃ f : OpenFile, f.header = h ∧ f.position = 0 :=
    ⟨{ sector := 0, header := h }, rfl, rfl⟩
  obtain ⟨data, hsize, hdata⟩ : ∃ data : Array UInt8, data.size = 256 ∧ data[0]? = some 1 :=
    ⟨.replicate 256 1, Array.size_replicate .., by simp⟩
  obtain ⟨bytes, p, hbytes, hact⟩ := exists_write_overlapping (m := m)
    (fun m' => ⟨(hh m').1, (hh m').2.1⟩) hlength hsize hposition
  refine ⟨⟨m, 6, { budget := some 1 }⟩, f, data, _, _, hf, hsize, hposition, hact, ?_⟩
  rintro ⟨j, ⟨hj, hlt⟩, hwritten⟩
  have hmoved : f.moved 0 256 = 256 := by
    rw [moved, length, hlength]
    rfl
  have hbyte (m' : Medium) : f.header.byte m' 128 = m'.byteAt 640 := by
    rw [Header.byte, Header.sectorAt, Header.pointerAt, (hh m').2.1]
    exact congrArg m'.byteAt (by decide)
  -- wherever the write has stopped, it should not have reached the second half of the file
  have hkept := hwritten.outside 128 (Or.inr (by simp only [sectorSize] at hj; omega))
  rw [Header.getElem?_contents, Header.getElem?_contents, if_pos (by omega), if_pos (by omega),
    hbyte, hbyte] at hkept
  have hnew : (m.put 5 bytes).byteAt 640 = bytes[0] := by
    have hget := Medium.getElem_get (m.put 5 bytes) 5 (i := 0) (by decide)
    simp only [Medium.get_put_self] at hget
    exact hget.symm
  rw [Option.some.injEq, hnew] at hkept
  rw [hkept, hdata] at hbytes
  exact hold (Option.some.inj hbytes)

end OpenFile

end IndexedDisk
