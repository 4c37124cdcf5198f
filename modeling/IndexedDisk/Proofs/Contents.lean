import IndexedDisk.OpenFile
import IndexedDisk.Proofs.Layout

/-!
# The contents of a file

`Header.contents` is what a file holds, as one byte string: its data sectors one after the other,
cut at its length. Transfers are followed through it.

* `follows_readAt`: a read lays the contents from its position on over the buffer.
* `follows_writeAt`: a write follows `writeScript`, one sector for each span of its range.
* `contents_writeScript`, `get_writeScript`: the script lays the data over the contents, changes
  data sectors of the file only, and leaves their bytes outside of the range alone.
-/

namespace IndexedDisk

/-! ## Spans -/

theorem spans_pairwise (start stop : Nat) : (spans start stop).Pairwise fun a b =>
    a.offset / sectorSize < b.offset / sectorSize := by
  fun_induction spans start stop with
  | case1 start hlt length ih =>
    have hl : length = min (stop - start) (128 - start % 128) := rfl
    refine List.pairwise_cons.mpr ⟨fun b hb => ?_, ih⟩
    have := bounds_of_mem_spans hb
    simp only [sectorSize] at *
    omega
  | case2 => exact List.Pairwise.nil

theorem mem_span_iff {start stop : Nat} {span : Span} (h : span ∈ spans start stop) {o : Nat}
    (ho : o / sectorSize = span.offset / sectorSize) :
    span.offset ≤ o ∧ o < span.offset + span.length ↔ start ≤ o ∧ o < stop := by
  fun_induction spans start stop with
  | case1 start hlt length ih =>
    have hl : length = min (stop - start) (128 - start % 128) := rfl
    simp only [sectorSize] at *
    rcases List.mem_cons.mp h with rfl | h
    · dsimp only at ho ⊢
      omega
    · have := ih h
      have := bounds_of_mem_spans h
      omega
  | case2 => cases h

theorem exists_span {start stop o : Nat} (hstart : start ≤ o) (hstop : o < stop) :
    ∃ span ∈ spans start stop, o / sectorSize = span.offset / sectorSize := by
  fun_induction spans start stop with
  | case1 start hlt length ih =>
    have hl : length = min (stop - start) (128 - start % 128) := rfl
    by_cases ho : o < start + length
    · refine ⟨_, List.mem_cons_self .., ?_⟩
      simp only [sectorSize] at *
      omega
    · obtain ⟨span, hmem, heq⟩ := ih (by omega)
      exact ⟨span, List.mem_cons_of_mem _ hmem, heq⟩
  | case2 start hge => omega

namespace Header

variable (m : Medium) (h : Header)

/-- Byte `offset` of the file. Past its end this is what the last sector holds there. -/
def byte (offset : Nat) : UInt8 :=
  m.byteAt (sectorSize * h.sectorAt m (offset / sectorSize) + offset % sectorSize)

/-- The contents of the file. -/
def contents : Array UInt8 := Array.ofFn fun o : Fin h.length => h.byte m o.val

/-- The bytes of a span. -/
def piece (span : Span) : Array UInt8 :=
  Array.ofFn fun j : Fin span.length => h.byte m (span.offset + j.val)

variable {m h}

@[simp] theorem size_contents : (h.contents m).size = h.length := by
  simp [contents]

theorem getElem?_contents (o : Nat) :
    (h.contents m)[o]? = if o < h.length then some (h.byte m o) else none := by
  simp only [contents, Array.getElem?_ofFn]
  split <;> rfl

@[simp] theorem size_piece (span : Span) : (h.piece m span).size = span.length := by
  simp [piece]

theorem getElem?_piece {span : Span} {j : Nat} (hj : j < span.length) :
    (h.piece m span)[j]? = some (h.byte m (span.offset + j)) := by
  simp [piece, hj]

theorem extract_sector {span : Span} (hspan : span.start + span.length ≤ sectorSize) :
    (m.get (h.sectorAt m (span.offset / sectorSize))).toArray.extract span.start
      (span.start + span.length) = h.piece m span := by
  apply Array.ext_getElem?
  intro j
  by_cases hj : j < span.length
  · have hdiv : (span.offset + j) / sectorSize = span.offset / sectorSize := by
      simp only [Span.start, sectorSize] at *
      omega
    have hmod : (span.offset + j) % sectorSize = span.start + j := by
      simp only [Span.start, sectorSize] at *
      omega
    rw [getElem?_piece hj, byte, hdiv, hmod, Array.getElem?_extract_of_lt (by
      simp only [Vector.size_toArray, sectorSize] at *
      omega)]
    simp [Medium.get]
  · rw [Array.getElem?_eq_none (by simp; omega), Array.getElem?_eq_none (by simp; omega)]

theorem byte_congr {m' : Medium} (hindex : ∀ s ∈ h.index m, m'.get s = m.get s) {o : Nat}
    (hsector : m'.get (h.sectorAt m (o / sectorSize)) = m.get (h.sectorAt m (o / sectorSize))) :
    h.byte m' o = h.byte m o := by
  have hmod : o % sectorSize < 128 := Nat.mod_lt _ (by decide)
  rw [byte, byte, sectorAt_congr hindex, ← Medium.getElem_get _ _ hmod,
    ← Medium.getElem_get _ _ hmod, hsector]

theorem contents_congr {m' : Medium} (hh : h.Intact m)
    (hindex : ∀ s ∈ h.index m, m'.get s = m.get s) (hdata : ∀ s ∈ h.data m, m'.get s = m.get s) :
    h.contents m' = h.contents m := by
  apply Array.ext_getElem?
  intro o
  rw [getElem?_contents, getElem?_contents]
  by_cases ho : o < h.length
  · rw [if_pos ho, if_pos ho, byte_congr hindex (hdata _ (hh.sectorAt_mem (hh.lt_sectors ho)))]
  · rw [if_neg ho, if_neg ho]

/-! ## Reading -/

/-- The transfers that read a span. -/
def readScript (m : Medium) (h : Header) (span : Span) : Script :=
  Script.reads (h.route m (span.offset / sectorSize)
    ++ [h.sectorAt m (span.offset / sectorSize)])

/-- Pieces of a range, laid over a buffer one after the other, are the bytes of the range. -/
theorem foldl_pieces (m : Medium) (h : Header) (position start stop : Nat) (hp : position ≤ start)
    (buffer : Array UInt8) (i : Nat) :
    ((spans start stop).foldl (fun b span =>
      Bytes.overlay b (span.offset - position) (h.piece m span)) buffer)[i]? =
      if start ≤ position + i ∧ position + i < stop ∧ i < buffer.size then
        some (h.byte m (position + i))
      else buffer[i]? := by
  fun_induction spans start stop generalizing buffer with
  | case1 start hlt length ih =>
    have hl : length = min (stop - start) (128 - start % 128) := rfl
    rw [List.foldl_cons, ih (by omega), Bytes.size_overlay, Bytes.getElem?_overlay, size_piece]
    dsimp only
    by_cases hbuf : i < buffer.size
    · by_cases hin : start ≤ position + i ∧ position + i < start + length
      · rw [if_neg (by omega), if_pos (by omega), if_pos (by omega),
          getElem?_piece (by dsimp only; omega)]
        congr 2
        dsimp only
        omega
      · by_cases hrest : start + length ≤ position + i ∧ position + i < stop
        · rw [if_pos (by omega), if_pos (by omega)]
        · rw [if_neg (by omega), if_neg (by omega), if_neg (by omega)]
    · rw [if_neg (by omega), if_neg (by omega), if_neg (by omega)]
  | case2 start hge =>
    rw [if_neg (by omega)]
    rfl

namespace Intact

variable {f : OpenFile} {count : Nat} (hh : f.header.Intact m)
include hh

theorem follows_readSpan {position : Nat} {span : Span} (hlen : span.offset < f.header.length)
    (hspan : span.start + span.length ≤ sectorSize) (buffer : Array UInt8) :
    Follows m count (Disk.runOn buffer (f.readSpan position span)) (readScript m f.header span)
      (.ok ((), Bytes.overlay buffer (span.offset - position) (f.header.piece m span))) := by
  rw [← extract_sector hspan, readScript, Script.reads_append]
  refine Follows.runOn_bind (Follows.runOn_lift (hh.follows_sectorOf hlen)) ?_
  rw [Script.medium_reads]
  refine Follows.of_script (Follows.runOn_bind (Follows.runOn_lift (Follows.readSector _)) ?_)
    (List.append_nil _)
  exact fun _ => rfl

theorem follows_readSpans {position : Nat} {spans : List Span}
    (hlen : ∀ span ∈ spans, span.offset < f.header.length)
    (hspan : ∀ span ∈ spans, span.start + span.length ≤ sectorSize) (buffer : Array UInt8) :
    Follows m count (Disk.runOn buffer (f.readSpans position spans))
      (spans.flatMap (readScript m f.header))
      (.ok ((), spans.foldl (fun b span =>
        Bytes.overlay b (span.offset - position) (f.header.piece m span)) buffer)) := by
  induction spans generalizing buffer with
  | nil => exact Follows.runOn_pure () buffer
  | cons span spans ih =>
    rw [List.flatMap_cons, List.foldl_cons]
    refine Follows.runOn_bind (hh.follows_readSpan (hlen span (List.mem_cons_self ..))
      (hspan span (List.mem_cons_self ..)) buffer) ?_
    rw [readScript, Script.medium_reads]
    exact ih (fun s hs => hlen s (List.mem_cons_of_mem _ hs))
      (fun s hs => hspan s (List.mem_cons_of_mem _ hs)) _

/-- A read lays the contents from its position on over the buffer, and counts them. -/
theorem follows_readAt (position : Nat) (buffer : Array UInt8)
    (hbound : f.header.length ≤ position ∨ position + buffer.size < 0x10000000000000000) :
    Follows m count (Disk.runOn buffer (f.readAt position))
      ((spans position (min (position + buffer.size) f.header.length)).flatMap
        (readScript m f.header))
      (.ok (min (position + buffer.size) f.header.length - position,
        Bytes.overlay buffer 0
          ((f.header.contents m).extract position (position + buffer.size)))) := by
  have hroom : Follows m count (Disk.runOn buffer OpenFile.room) [] (.ok (buffer.size, buffer)) :=
    fun _ => rfl
  refine Follows.runOn_bind hroom ?_
  by_cases hskip : f.length ≤ position ∨ buffer.size = 0
  · rw [if_pos hskip]
    have hle : min (position + buffer.size) f.header.length ≤ position := by
      rcases hskip with h | h
      · have h : f.header.length ≤ position := h
        omega
      · omega
    have hempty : Bytes.overlay buffer 0
        ((f.header.contents m).extract position (position + buffer.size)) = buffer := by
      apply Array.ext_getElem?
      intro i
      rw [Bytes.getElem?_overlay, if_neg]
      simp only [Array.size_extract, size_contents]
      omega
    rw [spans_of_le hle, Nat.sub_eq_zero_of_le hle, hempty]
    exact Follows.runOn_pure 0 buffer
  · rw [not_or] at hskip
    have hlt : position < f.header.length := Nat.lt_of_not_le hskip.1
    have hsum : position + buffer.size < 0x10000000000000000 := by omega
    rw [if_neg (by rw [not_or]; exact hskip)]
    have hstop : f.stop position buffer.size
        = .ok (min (position + buffer.size) f.header.length) := if_pos hsum
    generalize hs : min (position + buffer.size) f.header.length = stop at hstop ⊢
    have hfold : (spans position stop).foldl (fun b span =>
        Bytes.overlay b (span.offset - position) (f.header.piece m span)) buffer
        = Bytes.overlay buffer 0
          ((f.header.contents m).extract position (position + buffer.size)) := by
      apply Array.ext_getElem?
      intro i
      rw [foldl_pieces m f.header position position stop (Nat.le_refl _), Bytes.getElem?_overlay]
      simp only [Array.size_extract, size_contents, Nat.sub_zero]
      by_cases hi : position + i < stop ∧ i < buffer.size
      · rw [if_pos (by omega), if_pos (by omega), Array.getElem?_extract, size_contents,
          if_pos (by omega), getElem?_contents, if_pos (by omega)]
      · rw [if_neg (by omega), if_neg (by omega)]
    refine Follows.runOn_ok_bind hstop ?_
    refine Follows.of_script (Follows.runOn_bind (hh.follows_readSpans
      (fun span hspan => ?_) (fun span hspan => (bounds_of_mem_spans hspan).2.2.2) buffer) ?_)
      (List.append_nil _)
    · have := bounds_of_mem_spans hspan
      omega
    · rw [hfold]
      exact Follows.runOn_pure _ _

end Intact

theorem exists_readScripts (hh : h.Intact m) {l : List Span}
    (hl : ∀ span ∈ l, span.offset < h.length) :
    ∃ sectors, l.flatMap (h.readScript m) = Script.reads sectors
      ∧ sectors ⊆ h.data m ++ h.index m := by
  induction l with
  | nil => exact ⟨[], rfl, by simp⟩
  | cons span l ih =>
    obtain ⟨sectors, heq, hsub⟩ := ih fun span hspan => hl span (List.mem_cons_of_mem _ hspan)
    have hk := hh.lt_sectors (hl span (List.mem_cons_self ..))
    refine ⟨h.route m (span.offset / sectorSize) ++ [h.sectorAt m (span.offset / sectorSize)]
      ++ sectors, ?_, ?_⟩
    · rw [List.flatMap_cons, heq, readScript, ← Script.reads_append]
    · refine List.append_subset.mpr ⟨List.append_subset.mpr ⟨?_, ?_⟩, hsub⟩
      · exact fun s hs => List.mem_append_right _ (hh.route_subset hk hs)
      · simp [hh.sectorAt_mem hk]

theorem exists_follows_readAt {f : OpenFile} {count position : Nat} {buffer : Array UInt8}
    (hh : f.header.Intact m)
    (hbound : f.header.length ≤ position ∨ position + buffer.size < 0x10000000000000000) :
    ∃ sectors ⊆ f.header.data m ++ f.header.index m,
      Follows m count (Disk.runOn buffer (f.readAt position)) (Script.reads sectors)
        (.ok (min (position + buffer.size) f.header.length - position, Bytes.overlay buffer 0
          ((f.header.contents m).extract position (position + buffer.size)))) := by
  have hspans : ∀ span ∈ spans position (min (position + buffer.size) f.header.length),
      span.offset < f.header.length := by
    intro span hspan
    have := bounds_of_mem_spans hspan
    omega
  obtain ⟨sectors, heq, hsub⟩ := exists_readScripts hh hspans
  have hread : Follows m count (Disk.runOn buffer (f.readAt position)) _ _ :=
    hh.follows_readAt position buffer hbound
  rw [heq] at hread
  exact ⟨sectors, hsub, hread⟩

/-! ## Writing -/

/-- The transfers that write a span. The bytes around the span are those of the old sector. -/
def spanScript (m : Medium) (h : Header) (position : Nat) (data : Array UInt8) (span : Span) :
    Script :=
  let s := h.sectorAt m (span.offset / sectorSize)
  Script.reads (h.route m (span.offset / sectorSize)
      ++ if span.length < sectorSize then [s] else [])
    ++ [.write s ((m.get s).patch span.start
      (data.extract (span.offset - position) (span.offset - position + span.length)))]

/-- The transfers that write `data` to the file from `position` on, as far as it reaches. -/
def writeScript (m : Medium) (h : Header) (position : Nat) (data : Array UInt8) : Script :=
  (spans position (min (position + data.size) h.length)).flatMap (h.spanScript m position data)

/-- No sector of the file is named twice. -/
def Separate (m : Medium) (h : Header) : Prop := (h.data m ++ h.index m).Nodup

theorem writeScript_congr {m' : Medium} (hh : h.Intact m)
    (hindex : ∀ s ∈ h.index m, m'.get s = m.get s) (hdata : ∀ s ∈ h.data m, m'.get s = m.get s)
    (position : Nat) (data : Array UInt8) :
    h.writeScript m' position data = h.writeScript m position data := by
  rw [writeScript, writeScript, List.flatMap_def, List.flatMap_def]
  refine congrArg List.flatten (List.map_congr_left fun span hspan => ?_)
  have := bounds_of_mem_spans hspan
  rw [spanScript, spanScript, route_congr hindex, sectorAt_congr hindex,
    hdata _ (hh.sectorAt_mem (hh.lt_sectors (by omega)))]

theorem patch_of_size {s t : Sector} {start : Nat} {source : Array UInt8}
    (hsize : source.size = sectorSize) (hstart : start + source.size ≤ sectorSize) :
    s.patch start source = t.patch start source := by
  apply Vector.ext
  intro i hi
  rw [Sector.getElem_patch s start source hi, Sector.getElem_patch t start source hi,
    dif_pos (by simp only [sectorSize] at *; omega),
    dif_pos (by simp only [sectorSize] at *; omega)]

namespace Intact

variable {f : OpenFile} {count : Nat} {m' : Medium}

/-- A span is written by its script, on any medium that has the old sector and the old blocks. -/
theorem follows_writeSpan (hh : f.header.Intact m)
    (hindex : ∀ s ∈ f.header.index m, m'.get s = m.get s) {position : Nat} {data : Array UInt8}
    {span : Span} (hlen : span.offset < f.header.length)
    (hspan : span.start + span.length ≤ sectorSize)
    (hdata : span.offset - position + span.length ≤ data.size)
    (hsector : m'.get (f.header.sectorAt m (span.offset / sectorSize))
      = m.get (f.header.sectorAt m (span.offset / sectorSize))) :
    Follows m' count (f.writeSpan position data span)
      (f.header.spanScript m position data span) (.ok ()) := by
  have hsectorOf : Follows m' count (f.header.sectorOf span.offset) _ _ :=
    (Intact.congr hindex hh).follows_sectorOf hlen
  rw [route_congr hindex, pointerAt_congr hindex] at hsectorOf
  unfold spanScript
  dsimp only
  rw [Script.reads_append, List.append_assoc]
  refine Follows.bind_reads hsectorOf ?_
  change Follows m' count _ (Script.reads (if span.length < sectorSize
    then [Word.wide (f.header.pointerAt m (span.offset / sectorSize))] else []) ++ _) _
  change m'.get (Word.wide (f.header.pointerAt m (span.offset / sectorSize))) = _ at hsector
  by_cases hpart : span.length < sectorSize
  · rw [if_pos hpart, if_pos hpart, ← hsector]
    exact Follows.bind_reads (Follows.readSector _) (Follows.writeSector _ _)
  · rw [if_neg hpart, if_neg hpart]
    have hfull : (data.extract (span.offset - position)
        (span.offset - position + span.length)).size = sectorSize := by
      simp only [Array.size_extract]
      omega
    rw [patch_of_size (t := Sector.zero) hfull (by omega)]
    exact Follows.bind_reads (Follows.pure _) (Follows.writeSector _ _)

theorem targets_spanScript (m : Medium) (h : Header) (position : Nat) (data : Array UInt8)
    (span : Span) : (h.spanScript m position data span).targets
      = [h.sectorAt m (span.offset / sectorSize)] := by
  rw [spanScript, Script.targets_append, Script.targets_reads]
  rfl

theorem targets_flatMap (m : Medium) (h : Header) (position : Nat) (data : Array UInt8)
    (spans : List Span) : Script.targets (spans.flatMap (h.spanScript m position data))
      = spans.map fun span => h.sectorAt m (span.offset / sectorSize) := by
  induction spans with
  | nil => rfl
  | cons span spans ih =>
    rw [List.flatMap_cons, Script.targets_append, targets_spanScript, ih]
    rfl

theorem follows_writeSpans (hh : f.header.Intact m) (hsep : f.header.Separate m)
    {position : Nat} {data : Array UInt8} {spans : List Span}
    (hlen : ∀ span ∈ spans, span.offset < f.header.length)
    (hspan : ∀ span ∈ spans, span.start + span.length ≤ sectorSize)
    (hdata : ∀ span ∈ spans, span.offset - position + span.length ≤ data.size)
    (hpair : spans.Pairwise fun a b => a.offset / sectorSize < b.offset / sectorSize)
    (hindex : ∀ s ∈ f.header.index m, m'.get s = m.get s)
    (hsector : ∀ span ∈ spans, m'.get (f.header.sectorAt m (span.offset / sectorSize))
      = m.get (f.header.sectorAt m (span.offset / sectorSize))) :
    Follows m' count (f.writeSpans position data spans)
      (spans.flatMap (f.header.spanScript m position data)) (.ok ()) := by
  obtain ⟨hnodup, -, hdisjoint⟩ := List.nodup_append.mp hsep
  induction spans generalizing m' with
  | nil => exact Follows.pure ()
  | cons span spans ih =>
    have hmem := List.mem_cons_self (a := span) (l := spans)
    obtain ⟨hlater, hpair⟩ := List.pairwise_cons.mp hpair
    have hk := hh.lt_sectors (hlen span hmem)
    -- the write of this span leaves the blocks and the sectors of the later spans alone
    have hother : ∀ s, s ≠ f.header.sectorAt m (span.offset / sectorSize) →
        ((f.header.spanScript m position data span).medium m').get s = m'.get s := by
      intro s hs
      refine Script.get_medium_of_not_mem ?_ m'
      rw [targets_spanScript, List.mem_singleton]
      exact hs
    rw [List.flatMap_cons]
    refine Follows.bind (hh.follows_writeSpan hindex (hlen span hmem) (hspan span hmem)
      (hdata span hmem) (hsector span hmem)) ?_
    refine ih (fun s hs => hlen s (List.mem_cons_of_mem _ hs))
      (fun s hs => hspan s (List.mem_cons_of_mem _ hs))
      (fun s hs => hdata s (List.mem_cons_of_mem _ hs)) hpair (fun s hs => ?_)
      (fun s hs => ?_)
    · rw [hother s (Ne.symm (hdisjoint _ (hh.sectorAt_mem hk) s hs)), hindex s hs]
    · have hs' := List.mem_cons_of_mem span hs
      have hne : f.header.sectorAt m (s.offset / sectorSize)
          ≠ f.header.sectorAt m (span.offset / sectorSize) := by
        intro heq
        have := hh.sectorAt_inj hnodup (hh.lt_sectors (hlen s hs')) hk heq
        have := hlater s hs
        omega
      rw [hother _ hne, hsector s hs']

/-- A write follows its script, and counts the bytes that the file has room for. -/
theorem follows_writeAt (hh : f.header.Intact m) (hsep : f.header.Separate m) (position : Nat)
    (data : Array UInt8)
    (hbound : f.header.length ≤ position ∨ position + data.size < 0x10000000000000000) :
    Follows m count (f.writeAt position data) (f.header.writeScript m position data)
      (.ok (min (position + data.size) f.header.length - position)) := by
  unfold OpenFile.writeAt writeScript
  by_cases hskip : f.length ≤ position ∨ data.size = 0
  · rw [if_pos hskip]
    have hle : min (position + data.size) f.header.length ≤ position := by
      rcases hskip with h | h
      · have h : f.header.length ≤ position := h
        omega
      · omega
    rw [spans_of_le hle, Nat.sub_eq_zero_of_le hle]
    exact Follows.pure 0
  · rw [not_or] at hskip
    have hlt : position < f.header.length := Nat.lt_of_not_le hskip.1
    have hsum : position + data.size < 0x10000000000000000 := by omega
    rw [if_neg (by rw [not_or]; exact hskip)]
    have hstop : f.stop position data.size
        = .ok (min (position + data.size) f.header.length) := if_pos hsum
    generalize hs : min (position + data.size) f.header.length = stop at hstop ⊢
    refine Follows.ok_bind hstop ?_
    refine Follows.bind_nil (hh.follows_writeSpans hsep (fun span hspan => ?_)
      (fun span hspan => (bounds_of_mem_spans hspan).2.2.2) (fun span hspan => ?_)
      (spans_pairwise _ _) (fun _ _ => rfl) (fun _ _ => rfl)) (Follows.pure _)
    · have := bounds_of_mem_spans hspan
      omega
    · have := bounds_of_mem_spans hspan
      omega

end Intact

/-! ## What a write changes -/

section Effect

variable {m : Medium} {h : Header} (position : Nat) (data : Array UInt8)

theorem targets_writeScript : (h.writeScript m position data).targets
    = (spans position (min (position + data.size) h.length)).map fun span =>
      h.sectorAt m (span.offset / sectorSize) :=
  Intact.targets_flatMap ..

variable (hh : h.Intact m)
include hh

theorem targets_writeScript_subset : (h.writeScript m position data).targets ⊆ h.data m := by
  rw [targets_writeScript]
  intro s hs
  obtain ⟨span, hspan, rfl⟩ := List.mem_map.mp hs
  have := bounds_of_mem_spans hspan
  exact hh.sectorAt_mem (hh.lt_sectors (by omega))

theorem get_writeScript {s : Nat} (hs : s ∉ h.data m) :
    ((h.writeScript m position data).medium m).get s = m.get s :=
  Script.get_medium_of_not_mem (fun h => hs (targets_writeScript_subset position data hh h)) m

theorem mem_writeScript {t : Transfer} (ht : t ∈ h.writeScript m position data) :
    t.sector ∈ h.data m ++ h.index m := by
  rw [List.mem_append]
  obtain ⟨span, hspan, ht⟩ := List.mem_flatMap.mp ht
  have := bounds_of_mem_spans hspan
  have hk : span.offset / sectorSize < h.sectors := hh.lt_sectors (by omega)
  have hdata := hh.sectorAt_mem hk
  simp only [spanScript, Script.reads, List.map_append, List.mem_append, List.mem_map,
    List.mem_singleton] at ht
  rcases ht with (⟨s, hs, rfl⟩ | ⟨s, hs, rfl⟩) | rfl
  · exact Or.inr (hh.route_subset hk hs)
  · left
    split at hs
    · rw [List.mem_singleton] at hs
      subst hs
      exact hdata
    · cases hs
  · exact Or.inl hdata

variable (hsep : h.Separate m)
include hsep

theorem nodup_targets_writeScript : (h.writeScript m position data).targets.Nodup := by
  rw [targets_writeScript, List.Nodup, List.pairwise_map]
  refine List.Pairwise.imp_of_mem (fun ha hb hlt heq => ?_) (spans_pairwise _ _)
  have ha := bounds_of_mem_spans ha
  have hb := bounds_of_mem_spans hb
  have := hh.sectorAt_inj (List.nodup_append.mp hsep).1 (hh.lt_sectors (by omega))
    (hh.lt_sectors (by omega)) heq
  omega

theorem index_writeScript {s : Nat} (hs : s ∈ h.index m) :
    ((h.writeScript m position data).medium m).get s = m.get s :=
  get_writeScript position data hh fun hd => (List.nodup_append.mp hsep).2.2 s hd s hs rfl

/-- Byte by byte, a write replaces its range and leaves all else as it was. -/
theorem byte_writeScript {o : Nat} (ho : o / sectorSize < h.sectors) :
    h.byte ((h.writeScript m position data).medium m) o =
      if position ≤ o ∧ o < min (position + data.size) h.length then data.getD (o - position) 0
      else h.byte m o := by
  have hmod : o % sectorSize < 128 := Nat.mod_lt _ (by decide)
  have hnodup := (List.nodup_append.mp hsep).1
  rw [byte, byte, sectorAt_congr (fun s hs => index_writeScript position data hh hsep hs),
    ← Medium.getElem_get _ _ hmod, ← Medium.getElem_get _ _ hmod]
  by_cases hspan : ∃ span ∈ spans position (min (position + data.size) h.length),
      o / sectorSize = span.offset / sectorSize
  · obtain ⟨span, hmem, heq⟩ := hspan
    have hbounds := bounds_of_mem_spans hmem
    have hiff := mem_span_iff hmem heq
    have hwrite : Transfer.write (h.sectorAt m (o / sectorSize))
        ((m.get (h.sectorAt m (o / sectorSize))).patch span.start
          (data.extract (span.offset - position) (span.offset - position + span.length)))
        ∈ h.writeScript m position data := by
      rw [heq]
      refine List.mem_flatMap.mpr ⟨span, hmem, ?_⟩
      simp [spanScript]
    rw [Script.get_medium_of_mem (nodup_targets_writeScript position data hh hsep) hwrite,
      Sector.getElem_patch _ _ _ hmod]
    have hsize : (data.extract (span.offset - position)
        (span.offset - position + span.length)).size = span.length := by
      simp only [Array.size_extract]
      omega
    have hsplit := Nat.div_add_mod o sectorSize
    have hsplit' := Nat.div_add_mod span.offset sectorSize
    have hstart : span.start = span.offset % sectorSize := rfl
    by_cases hin : span.offset ≤ o ∧ o < span.offset + span.length
    · rw [dif_pos (by rw [hsize]; simp only [sectorSize] at *; omega), if_pos (hiff.mp hin)]
      rw [Array.getElem_extract, Array.getD_eq_getD_getElem?, Array.getElem?_eq_getElem (by omega)]
      simp only [Option.getD_some]
      congr 1
      simp only [sectorSize] at *
      omega
    · rw [dif_neg (by rw [hsize]; simp only [sectorSize] at *; omega),
        if_neg (fun hc => hin (hiff.mpr hc))]
  · have hout : ¬ (position ≤ o ∧ o < min (position + data.size) h.length) :=
      fun hc => hspan (exists_span hc.1 hc.2)
    rw [if_neg hout, Script.get_medium_of_not_mem]
    rw [targets_writeScript, List.mem_map]
    rintro ⟨span, hmem, heq⟩
    have := bounds_of_mem_spans hmem
    exact hspan ⟨span, hmem, (hh.sectorAt_inj hnodup (hh.lt_sectors (by omega)) ho heq).symm⟩

theorem contents_writeScript :
    h.contents ((h.writeScript m position data).medium m)
      = Bytes.overlay (h.contents m) position data := by
  apply Array.ext_getElem?
  intro o
  rw [Bytes.getElem?_overlay, getElem?_contents, getElem?_contents, size_contents]
  by_cases ho : o < h.length
  · rw [if_pos ho, if_pos ho, byte_writeScript position data hh hsep (hh.lt_sectors ho)]
    by_cases hin : position ≤ o ∧ o < position + data.size
    · rw [if_pos (by omega), if_pos (by omega), Array.getD_eq_getD_getElem?,
        Array.getElem?_eq_getElem (by omega)]
      rfl
    · rw [if_neg (by omega), if_neg (by omega)]
  · rw [if_neg ho, if_neg ho, if_neg (by omega)]

end Effect

theorem get_writeScript_first {m : Medium} {h : Header} (data : Array UInt8) (hh : h.Intact m)
    (hsep : h.Separate m) (hsize : sectorSize ≤ data.size) (hlength : sectorSize ≤ h.length) :
    ((h.writeScript m 0 data).medium m).get (h.sectorAt m 0)
      = Vector.ofFn fun i => data.getD i 0 := by
  refine Vector.ext fun i hi => ?_
  have hi' : i < sectorSize := hi
  have hzero : i / sectorSize = 0 := Nat.div_eq_of_lt hi'
  have hmod : i % sectorSize = i := Nat.mod_eq_of_lt hi'
  have hbyte := byte_writeScript 0 data hh hsep (hh.lt_sectors (Nat.lt_of_lt_of_le hi' hlength))
  rw [if_pos ⟨Nat.zero_le _, by omega⟩, byte, hzero, hmod,
    sectorAt_congr fun s hs => index_writeScript 0 data hh hsep hs] at hbyte
  rw [Medium.getElem_get _ _ hi, Vector.getElem_ofFn]
  exact hbyte

theorem follows_writeAt_congr {m m' : Medium} {f : OpenFile} {count : Nat} (position : Nat)
    (data : Array UInt8) (hh : f.header.Intact m) (hsep : f.header.Separate m)
    (hbound : f.header.length ≤ position ∨ position + data.size < 0x10000000000000000)
    (hindex : ∀ s ∈ f.header.index m, m'.get s = m.get s)
    (hdata : ∀ s ∈ f.header.data m, m'.get s = m.get s) :
    Follows m' count (f.writeAt position data) (f.header.writeScript m position data)
      (.ok (min (position + data.size) f.header.length - position)) := by
  have hsep' : f.header.Separate m' := by
    rw [Separate, data_congr hindex, index_congr hindex]
    exact hsep
  rw [← writeScript_congr hh hindex hdata]
  exact (Intact.congr hindex hh).follows_writeAt hsep' position data hbound

theorem contents_writeScript_congr {m m' : Medium} {h : Header} (position : Nat)
    (data : Array UInt8) (hh : h.Intact m) (hsep : h.Separate m)
    (hindex : ∀ s ∈ h.index m, m'.get s = m.get s) (hdata : ∀ s ∈ h.data m, m'.get s = m.get s) :
    h.contents ((h.writeScript m position data).medium m')
      = Bytes.overlay (h.contents m) position data := by
  have hsep' : h.Separate m' := by
    rw [Separate, data_congr hindex, index_congr hindex]
    exact hsep
  rw [← writeScript_congr hh hindex hdata,
    contents_writeScript position data (Intact.congr hindex hh) hsep',
    contents_congr hh hindex hdata]

end Header

end IndexedDisk
