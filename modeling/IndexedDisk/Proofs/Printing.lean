import IndexedDisk.Header.Print
import IndexedDisk.Proofs.Stored
import IndexedDisk.Proofs.Transfers

/-!
# Printed files

What the print of a header puts into a sink that takes everything, byte by byte. The print goes over
the tiers by the counts that are stored in the blocks, and stops in the last sector by what is left
of the length; a read translates each offset by itself. Both come to the same bytes.

* `Escape.toUTF8_line`: a line is made up of bytes that stand for themselves and of numbers in
  base 16.
* `Intact.shownPieces_eq`: what is printed of the data sectors are the contents, cut into pieces of
  one sector.
* `prints_what_is_read`: the sectors that are listed are those of the offsets, and the lines that
  follow hold what is read.
* `Overlaid`: sectors whose numbers do not fit in pointers, and a print that stops too early.
-/

namespace IndexedDisk

/-! ## Spelling -/

namespace Escape

/-- A digit in base 16 as a byte of ASCII, lower case. -/
def digit (d : Nat) : UInt8 := UInt8.ofNat (if d < 10 then 0x30 + d else 0x57 + d)

/--
A byte as it is spelled in ASCII: from the blank to the tilde it stands for itself, any other byte is
a backslash and the number of the byte in base 16, without a leading zero.
-/
def spelling (b : UInt8) : List UInt8 :=
  if 0x20 ≤ b ∧ b ≤ 0x7e then [b]
  else if b.toNat < 16 then [0x5c, digit b.toNat]
  else [0x5c, digit (b.toNat / 16), digit (b.toNat % 16)]

theorem toUTF8_ofList {l : List Char} (h : ∀ c ∈ l, c.val ≤ 127) :
    (String.ofList l).toUTF8 = (l.map Char.toUInt8).toByteArray := by
  rw [String.toUTF8, String.toByteArray_ofList, List.utf8Encode]
  congr 1
  induction l with
  | nil => rfl
  | cons c l ih =>
    obtain ⟨hc, hl⟩ := List.forall_mem_cons.mp h
    rw [List.flatMap_cons, ih hl,
      String.utf8EncodeChar_eq_singleton (Char.utf8Size_eq_one_iff.mpr hc)]
    rfl

theorem digitChar_eq : ∀ d < 16, (Nat.digitChar d).val ≤ 127 ∧
    (Nat.digitChar d).toUInt8 = digit d := by
  decide

theorem toDigits_eq {n : Nat} (h : n < 256) : Nat.toDigits 16 n =
    if n < 16 then [Nat.digitChar n] else [Nat.digitChar (n / 16), Nat.digitChar (n % 16)] := by
  split
  · rename_i hn
    exact Nat.toDigits_of_lt_base hn
  · rename_i hn
    rw [Nat.toDigits_of_base_le (by decide) (by omega), Nat.toDigits_of_lt_base (by omega)]
    rfl

theorem toUTF8_append (s t : String) : (s ++ t).toUTF8 = s.toUTF8 ++ t.toUTF8 :=
  String.toByteArray_append

theorem toUTF8_byte (b : UInt8) : (byte b).toUTF8 = (spelling b).toByteArray := by
  have hb : b.toNat < 256 := b.toNat_lt
  unfold byte spelling
  by_cases hprint : 0x20 ≤ b ∧ b ≤ 0x7e
  · have hchar : (Char.ofUInt8 b).toString = String.ofList [Char.ofUInt8 b] := rfl
    have hsmall : (Char.ofUInt8 b).val ≤ 127 := by
      have hle : b.toNat ≤ 126 := hprint.2
      rw [UInt32.le_iff_toNat_le]
      change b.toNat ≤ 127
      omega
    have hbyte : (Char.ofUInt8 b).toUInt8 = b := by
      apply UInt8.toNat_inj.mp
      change b.toNat % 256 = b.toNat
      exact Nat.mod_eq_of_lt hb
    rw [if_pos (by simpa using hprint), if_pos hprint, hchar, toUTF8_ofList (by simpa using hsmall),
      List.map_singleton, hbyte]
  · have hescape (l : List Char) : "\\" ++ String.ofList l = String.ofList ('\\' :: l) := by
      rw [String.ofList_cons]
      rfl
    rw [if_neg (by simpa using hprint), if_neg hprint, hex, toDigits_eq hb, hescape]
    by_cases hone : b.toNat < 16
    · obtain ⟨hsmall, hdigit⟩ := digitChar_eq b.toNat hone
      rw [if_pos hone, if_pos hone, toUTF8_ofList (by simpa using hsmall)]
      rw [List.map_cons, List.map_singleton, hdigit]
      rfl
    · obtain ⟨hhigh, hdigit⟩ := digitChar_eq (b.toNat / 16) (by omega)
      obtain ⟨hlow, hdigit'⟩ := digitChar_eq (b.toNat % 16) (by omega)
      rw [if_neg hone, if_neg hone, toUTF8_ofList (by simpa using ⟨hhigh, hlow⟩)]
      rw [List.map_cons, List.map_cons, List.map_singleton, hdigit, hdigit']
      rfl

theorem toUTF8_line (bytes : List UInt8) :
    (String.join (bytes.map byte) ++ "\n").toUTF8
      = (bytes.flatMap spelling ++ [0x0a]).toByteArray := by
  induction bytes with
  | nil => rfl
  | cons b bytes ih =>
    rw [List.map_cons, String.join_cons, String.append_assoc, toUTF8_append, toUTF8_byte, ih,
      List.flatMap_cons, List.append_assoc, ← List.toByteArray_append]

example : [0x68, 0x69, 0x0a, 0x7f, 0x21].flatMap spelling ++ [0x0a]
    = "hi\\a\\7f!\n".toUTF8.data.toList := by
  decide

end Escape

namespace Header

/-! ## Lines -/

/-- Bytes cut into pieces of one sector each. The last piece may be shorter. -/
def pieces (bytes : Array UInt8) : List (List UInt8) :=
  (List.range (sectorsFor bytes.size)).map fun k =>
    (bytes.extract (sectorSize * k) (sectorSize * (k + 1))).toList

/-- Bytes as they are printed, a line for each piece. -/
def printedLines (bytes : Array UInt8) : List UInt8 :=
  (pieces bytes).flatMap fun piece => piece.flatMap Escape.spelling ++ [0x0a]

/-- What stands before the lines: the length of the file and its data sectors. -/
def printedHeading (length : Nat) (sectors : List Int32) : String :=
  s!"FileHeader contents.  File size: {length}.  File blocks:\n"
    ++ String.join (sectors.map fun sector => s!"{sector} ") ++ "\nFile contents:\n"

theorem flatten_pieces (bytes : Array UInt8) : (pieces bytes).flatten = bytes.toList := by
  have key : ∀ n, ((List.range n).map fun k =>
      (bytes.extract (sectorSize * k) (sectorSize * (k + 1))).toList).flatten
      = bytes.toList.take (sectorSize * n) := by
    -- The pieces so far make up a prefix, which the next one extends.
    intro n
    induction n with
    | zero => rfl
    | succ n ih =>
      have hwidth : sectorSize * (n + 1) - sectorSize * n = sectorSize :=
        Nat.add_sub_cancel_left ..
      rw [List.range_succ, List.map_append, List.flatten_append, ih, Nat.mul_succ, List.take_add]
      simp [Array.toList_extract, List.extract, hwidth]
  rw [pieces, key]
  apply List.take_of_length_le
  simp only [Array.length_toList, sectorsFor, sectorSize]
  omega

theorem map_length_pieces (bytes : Array UInt8) : (pieces bytes).map List.length
    = (List.range (sectorsFor bytes.size)).map fun k =>
      min sectorSize (bytes.size - sectorSize * k) := by
  rw [pieces, List.map_map]
  apply List.map_congr_left
  intro k _
  have hstep : sectorSize * (k + 1) = sectorSize * k + sectorSize := rfl
  simp only [Function.comp_apply, Array.length_toList, Array.size_extract]
  omega

variable {m : Medium} {count : Nat} {h : Header}

/-- The pieces that are printed of data sectors, `left` bytes in all. -/
def shownPieces (m : Medium) : List Int32 → Nat → List (List UInt8)
  | [], _ => []
  | sector :: rest, left =>
    (m.get (Word.wide sector)).toList.take left :: shownPieces m rest (left - sectorSize)

theorem getElem?_shownPieces (sectors : List Int32) (left k : Nat) :
    (shownPieces m sectors left)[k]? = sectors[k]?.map fun sector =>
      (m.get (Word.wide sector)).toList.take (left - sectorSize * k) := by
  induction sectors generalizing left k with
  | nil => rfl
  | cons sector sectors ih =>
    cases k with
    | zero => rfl
    | succ k =>
      rw [shownPieces, List.getElem?_cons_succ, ih, List.getElem?_cons_succ, Nat.sub_sub,
        Nat.mul_succ, Nat.add_comm]

theorem take_sector (m : Medium) (h : Header) (k : Nat) :
    (m.get (h.sectorAt m k)).toList.take (h.length - sectorSize * k)
      = ((h.contents m).extract (sectorSize * k) (sectorSize * (k + 1))).toList := by
  apply List.ext_getElem?
  intro j
  have hstep : sectorSize * (k + 1) = sectorSize * k + 128 := rfl
  rw [List.getElem?_take, Vector.getElem?_toList, Array.getElem?_toList, Array.getElem?_extract,
    size_contents, getElem?_contents]
  by_cases hj : j < 128 ∧ j < h.length - sectorSize * k
  · have hdiv : (sectorSize * k + j) / sectorSize = k := by
      simp only [sectorSize]
      omega
    have hmod : (sectorSize * k + j) % sectorSize = j := by
      simp only [sectorSize]
      omega
    rw [if_pos hj.2, if_pos (by omega), if_pos (by omega), Vector.getElem?_eq_getElem hj.1,
      Medium.getElem_get _ _ hj.1, byte, hdiv, hmod]
  · have hout : ¬ j < min (sectorSize * (k + 1)) h.length - sectorSize * k := by omega
    rw [if_neg hout]
    split
    · exact Vector.getElem?_eq_none (by omega)
    · rfl

theorem Intact.shownPieces_eq (hh : h.Intact m) :
    shownPieces m (h.dataPointers m) h.length = pieces (h.contents m) := by
  apply List.ext_getElem?
  intro k
  rw [getElem?_shownPieces, pieces, List.getElem?_map, size_contents, ← hh.sectors_eq]
  by_cases hk : k < h.sectors
  · rw [hh.dataPointers_eq_some hk, List.getElem?_range hk]
    exact congrArg some (take_sector m h k)
  · have hlen := hh.length_dataPointers
    rw [List.getElem?_eq_none (by omega), List.getElem?_eq_none (by simpa using hk)]
    rfl

theorem Intact.lt_length_dataPointers_iff (hh : h.Intact m) (k : Nat) :
    k < (h.dataPointers m).length ↔ sectorSize * k < h.length := by
  rw [hh.length_dataPointers, hh.sectors_eq]
  simp only [sectorsFor, sectorSize]
  omega

theorem Intact.follows_sectorOf_start (hh : h.Intact m) {k : Nat}
    (hk : k < (h.dataPointers m).length) :
    Follows m count (h.sectorOf (sectorSize * k)) (Script.reads (h.route m k))
      (.ok (h.dataPointers m)[k]) := by
  have hpointer := hh.dataPointers_eq_some (Nat.lt_of_lt_of_eq hk hh.length_dataPointers)
  have hdiv : sectorSize * k / sectorSize = k := Nat.mul_div_cancel_left k (by decide)
  rw [List.getElem?_eq_getElem hk, Option.some.injEq] at hpointer
  have hfollows : Follows m count _ _ _ :=
    hh.follows_sectorOf ((hh.lt_length_dataPointers_iff k).mp hk)
  rwa [hdiv, ← hpointer] at hfollows

/-! ## Printing -/

theorem follows_emit (before : ByteArray) (text : String) :
    Follows m count (Disk.runOn ⟨none, before⟩ (Sink.emit text)) []
      (.ok ((), ⟨none, before ++ text.toUTF8⟩)) :=
  fun _ => rfl

theorem follows_printContents (before : ByteArray) (sectors : List Int32) (left : Nat) :
    Follows m count (Disk.runOn ⟨none, before⟩ (printContents sectors left))
      (Script.reads (sectors.map Word.wide))
      (.ok ((), ⟨none, before ++ ((shownPieces m sectors left).flatMap fun piece =>
        piece.flatMap Escape.spelling ++ [0x0a]).toByteArray⟩)) := by
  induction sectors generalizing before left with
  | nil =>
    rw [shownPieces, List.flatMap_nil, List.toByteArray_nil, ByteArray.append_empty]
    exact Follows.runOn_pure () _
  | cons sector sectors ih =>
    rw [shownPieces, List.flatMap_cons, List.toByteArray_append, ← ByteArray.append_assoc,
      ← Escape.toUTF8_line]
    refine Follows.runOn_bind (Follows.runOn_lift (Follows.readSector _)) ?_
    refine Follows.runOn_bind (follows_emit before _) ?_
    exact ih _ _

theorem toString_byteCount (hle : h.length ≤ maxFileSize) :
    toString h.byteCount = toString h.length := by
  have hint : h.byteCount.toInt = (h.length : Int) := by
    have := h.byteCount.le_toInt
    have := h.byteCount.toInt_lt
    simp only [length, Word.wide, maxFileSize, maxFileSectors, sectorSize, directPointers,
      blockPointers] at *
    omega
  change toString h.byteCount.toInt = toString h.length
  rw [hint]
  rfl

/-- A print is the heading and the lines. -/
theorem Legible.follows_print (hl : h.Legible m) (hle : h.length ≤ maxFileSize)
    (before : ByteArray) :
    Follows m count (Disk.runOn ⟨none, before⟩ h.print)
      (Script.reads (h.index m ++ h.data m))
      (.ok ((), ⟨none, before ++ (printedHeading h.length (h.dataPointers m)).toUTF8
        ++ ((shownPieces m (h.dataPointers m) h.length).flatMap fun piece =>
          piece.flatMap Escape.spelling ++ [0x0a]).toByteArray⟩)) := by
  have hheading : printedHeading h.length (h.dataPointers m)
      = s!"FileHeader contents.  File size: {h.byteCount}.  File blocks:\n"
        ++ String.join ((h.dataPointers m).map fun sector => s!"{sector} ")
        ++ "\nFile contents:\n" := by
    unfold printedHeading
    rw [toString_byteCount hle]
  rw [hheading, Escape.toUTF8_append, Escape.toUTF8_append, ← ByteArray.append_assoc,
    ← ByteArray.append_assoc, Script.reads_append]
  refine Follows.runOn_bind (Follows.runOn_lift hl.follows_dataSectors) ?_
  rw [Script.medium_reads]
  refine Follows.runOn_bind (follows_emit _ _) ?_
  refine Follows.runOn_bind (follows_emit _ _) ?_
  refine Follows.runOn_bind (follows_emit _ _) ?_
  exact follows_printContents _ _ _

/-- The lines of a file that is intact are those of its contents. -/
theorem Intact.follows_print (hh : h.Intact m) (before : ByteArray) :
    Follows m count (Disk.runOn ⟨none, before⟩ h.print)
      (Script.reads (h.index m ++ h.data m))
      (.ok ((), ⟨none, before ++ (printedHeading h.length (h.dataPointers m)).toUTF8
        ++ (printedLines (h.contents m)).toByteArray⟩)) := by
  rw [printedLines, ← hh.shownPieces_eq]
  exact hh.legible.follows_print hh.length_le before

/-! ## Single blocks that are overwritten -/

/-- A file of which an empty double block has taken the place of the single block. -/
structure Overlaid (m : Medium) (h : Header) : Prop where
  length_eq : h.length = 7552
  sectors_eq : h.sectors = 59
  direct_eq : h.direct = Vector.ofFn fun i => Word.ofNat i.val
  single_eq : h.single = 28
  double_eq : h.double = 28
  stored_eq : IndexBlock.stored m 28 = IndexBlock.ofList []

theorem exists_overlaid {map : SectorMap} (hmap : map.Tidy)
    (hfree : map.free = List.range 60 ++ [0x10000001C]) : ∃ (m : Medium) (h : Header),
    h.Allocated map 7552 m ∧ h.Overlaid m ∧ sectorSize * 60 ≤ m.size := by
  obtain ⟨m, hm⟩ : ∃ m : Medium, sectorSize * 60 ≤ m.size :=
    ⟨.replicate (sectorSize * 60) 0, Nat.le_of_eq (Medium.size_replicate ..).symm⟩
  obtain ⟨script, hscript⟩ : ∃ script : Script, script = [
      blockWrite ((List.range 60 ++ [0x10000001C]).drop 28) 31,
      .write 28 (IndexBlock.ofList []).toSector] := ⟨_, rfl⟩
  have hsources : script.sources = [] := by rw [hscript]; rfl
  have htargets : script.targets = [28, 28] := by rw [hscript]; rfl
  have hget : (script.medium m).get 28 = (IndexBlock.ofList []).toSector := by
    rw [hscript, Script.medium_cons, Script.medium_cons, Script.medium_nil, Transfer.medium,
      Medium.get_put_self]
  have hfill : Follows m 60 _ _ _ := Supply.follows_fill_overlaid (s := ⟨map, []⟩) hfree
  rw [hfree, ← hscript] at hfill
  have hact := (follows_allocate_of_fill (h := .empty) (by decide) (SectorMap.freeCount_eq hmap)
    (by rw [hfree, List.length_append, List.length_range]; decide) hfill).eval_of_served (p := {})
    (by rw [hsources]; exact Disk.Delivers.nil _)
    (by rw [htargets]; exact Disk.accepts_default (by decide))
  refine ⟨script.medium m, _, ⟨_, _, _, Disk.eq_ok_of_runOn hact, rfl, fun _ _ => rfl⟩, ?_,
    Nat.le_trans hm (Script.le_size_medium ..)⟩
  exact {
    length_eq := length_planned (by decide)
    sectors_eq := sectors_planned (by decide)
    direct_eq := (by decide : (planned 7552 (List.range 60 ++ [0x10000001C])).direct = _)
    single_eq := (by decide : (planned 7552 (List.range 60 ++ [0x10000001C])).single = 28)
    double_eq := (by decide : (planned 7552 (List.range 60 ++ [0x10000001C])).double = 28)
    stored_eq := (congrArg IndexBlock.ofSector hget).trans (IndexBlock.ofSector_toSector _) }

namespace Overlaid

variable (hh : h.Overlaid m)
include hh

theorem single?_eq : h.single? = some 28 := by
  rw [single?_eq_some (by rw [hh.single_eq]; decide), hh.single_eq]

theorem double?_eq : h.double? = some 28 := by
  rw [double?_eq_some (by rw [hh.double_eq]; decide), hh.double_eq]

theorem named_eq : (IndexBlock.stored m 28).named = [] := by
  rw [hh.stored_eq, IndexBlock.named_ofList (by decide)]

theorem children_eq : h.children m = [] := by
  rw [children, hh.double?_eq]
  exact hh.named_eq

theorem dataPointers_eq : h.dataPointers m = (List.range 28).map Word.ofNat := by
  have hdirect : h.directSectors = (List.range 28).map Word.ofNat := by
    rw [directSectors, hh.direct_eq, hh.sectors_eq]
    decide
  have hsingle : h.singlePointers m = [] := by
    rw [singlePointers, hh.single?_eq]
    exact hh.named_eq
  rw [dataPointers, hdirect, hsingle, doublePointers, hh.children_eq]
  rfl

theorem indexPointers_eq : h.indexPointers m = [28, 28] := by
  rw [indexPointers, hh.single?_eq, hh.double?_eq, hh.children_eq]
  rfl

theorem legible : h.Legible m := by
  have hle : Word.wide (IndexBlock.stored m 28).count ≤ blockPointers := by
    rw [hh.stored_eq]
    decide
  refine ⟨fun p hp => ?_, fun p hp => ?_, fun c hc => ?_⟩
  · rw [hh.single?_eq] at hp
    exact Option.some.inj hp ▸ hle
  · rw [hh.double?_eq] at hp
    exact Option.some.inj hp ▸ hle
  · rw [hh.children_eq] at hc
    cases hc

/-- The enumeration stops with the direct sectors. The translation goes on to the single block, where
there are no pointers. -/
theorem follows_sectorOf {k : Nat} (hk : k ≤ 28) :
    Follows m count (h.sectorOf (sectorSize * k)) (Script.reads (if k < 28 then [] else [28]))
      (.ok (((List.range 28).map Word.ofNat).getD k 0)) := by
  have hlength := hh.length_eq
  have hdiv : sectorSize * k / sectorSize = k := Nat.mul_div_cancel_left k (by decide)
  rw [sectorOf, if_neg (by simp only [sectorSize]; omega), hdiv]
  obtain hk' | rfl := Nat.lt_or_eq_of_le hk
  · have hdirect : k < directPointers := hk'
    rw [locate, dif_pos hdirect, if_pos hk', List.getD_eq_getElem?_getD, List.getElem?_map,
      List.getElem?_range hk']
    simp only [hh.direct_eq, Vector.getElem_ofFn]
    exact Follows.pure _
  · rw [locate, dif_neg (by decide), if_pos (by decide), hh.single_eq]
    refine Follows.bind_reads (IndexBlock.follows_fetch 28) ?_
    rw [hh.stored_eq]
    exact Follows.of_ok (by decide)

end Overlaid

/-- After the sectors that it lists a heading breaks the line, where a longer one has a digit. -/
theorem printedHeading_ne (length : Nat) (sectors rest : List Int32) (a b : ByteArray) :
    (printedHeading length sectors).toUTF8 ++ a
      ≠ (printedHeading length (sectors ++ 0 :: rest)).toUTF8 ++ b := by
  obtain ⟨start, hstart⟩ : ∃ start : String, start
      = s!"FileHeader contents.  File size: {length}.  File blocks:\n"
        ++ String.join (sectors.map fun sector => s!"{sector} ") := ⟨_, rfl⟩
  have hshort : printedHeading length sectors = start ++ ("\nF" ++ "ile contents:\n") := by
    rw [hstart]
    rfl
  have hlong : printedHeading length (sectors ++ 0 :: rest) = start ++ ("0 "
      ++ (String.join (rest.map fun sector => s!"{sector} ") ++ "\nFile contents:\n")) := by
    have hzero : s!"{(0 : Int32)} " = "0 " := by decide
    unfold printedHeading
    rw [hstart, List.map_append, List.map_cons, String.join_append, String.join_cons, hzero]
    simp only [String.append_assoc]
  intro heq
  rw [hshort, hlong, Escape.toUTF8_append, Escape.toUTF8_append start, Escape.toUTF8_append "\nF",
    Escape.toUTF8_append "0 "] at heq
  simp only [ByteArray.append_assoc, ByteArray.append_right_inj] at heq
  have hfirst := String.toByteArray_inj.mp (ByteArray.append_inj_left heq rfl)
  exact absurd hfirst (by decide)

end Header

namespace OpenFile

/--
The print of an open file, put after what a sink that takes everything has: `sectors` are listed, and
the lines after them are those of `contents`. These sectors are the ones that the offsets translate
to, and these contents are what is read.
-/
structure Printed (f : OpenFile) (disk : Disk) (before : ByteArray) (sectors : List Int32)
    (contents : Array UInt8) : Prop where
  print_eq : ∃ disk', f.header.print ⟨disk, ⟨none, before⟩⟩ = .ok () ⟨disk', ⟨none,
    before ++ (Header.printedHeading f.length sectors).toUTF8
      ++ (Header.printedLines contents).toByteArray⟩⟩ ∧ disk'.medium = disk.medium
  lt_length_iff : ∀ k, k < sectors.length ↔ sectorSize * k < f.length
  sectorOf_eq : ∀ k (hk : k < sectors.length), ∃ disk',
    f.header.sectorOf (sectorSize * k) disk = .ok sectors[k] disk'
  readAt_eq : ∀ buffer : Array UInt8, buffer.size = f.length → ∃ disk',
    f.readAt 0 ⟨disk, buffer⟩ = .ok f.length ⟨disk', contents⟩
  size_eq : contents.size = f.length
  flatten_eq : (Header.pieces contents).flatten = contents.toList

/--
**A print shows what is read.** Let a file be open whose header was made by an allocation, of sectors
whose numbers fit in pointers, and whose index blocks are as they were written then, on a disk where
all its sectors can be read. The print of its header into a sink that takes everything lists the
sectors that the offsets 0, 128, 256 and so on translate to, up to the length of the file. After them
it has a line for each 128 bytes of what a read of the whole file puts into a buffer, of which the
last may be shorter: printable bytes stand for themselves, and any other is a backslash and its number
in base 16. Every byte of the file is printed, and no byte past its end.
-/
theorem prints_what_is_read {disk : Disk} {f : OpenFile} {map : SectorMap} {size : Nat}
    (hf : f.header.Allocated map size disk.medium) (hsmall : map.Addressable size)
    (hread : disk.Readable (f.header.data disk.medium ++ f.header.index disk.medium))
    (before : ByteArray) : ∃ sectors contents, f.Printed disk before sectors contents := by
  obtain ⟨m, count, p⟩ := disk
  have hh : f.header.Intact m := hf.intact hsmall
  refine ⟨f.header.dataPointers m, f.header.contents m, ?_⟩
  exact {
    print_eq := by
      have hact := (hh.follows_print before).eval_of_delivers (p := p)
        (hread.delivers (List.append_subset.mpr
          ⟨List.subset_append_right .., List.subset_append_left ..⟩))
      exact ⟨_, Disk.eq_ok_of_runOn hact, rfl⟩
    lt_length_iff := hh.lt_length_dataPointers_iff
    sectorOf_eq := fun k hk => by
      have hroute := hh.route_subset (Nat.lt_of_lt_of_eq hk hh.length_dataPointers)
      exact ⟨_, (hh.follows_sectorOf_start hk).eval_of_delivers
        (hread.delivers (List.subset_append_of_subset_right _ hroute))⟩
    readAt_eq := fun buffer hsize => by
      obtain ⟨sectors, heq, hsub⟩ := Header.exists_loadScript hh
      have hfollows : Follows m count _ _ _ := Header.follows_readAt_whole hh hsize
      rw [heq] at hfollows
      exact ⟨_, Disk.eq_ok_of_runOn (hfollows.eval_of_delivers (hread.delivers hsub))⟩
    size_eq := Header.size_contents
    flatten_eq := Header.flatten_pieces _ }

/--
A file of 7600 bytes is printed in sixty lines. It reaches into a child block, and its last sector
holds 48 bytes of it.
-/
theorem prints_what_is_read_sixty : ∃ (disk : Disk) (f : OpenFile) (sectors : List Int32)
    (contents : Array UInt8), f.header.Allocated (.empty 64) 7600 disk.medium ∧
    (SectorMap.empty 64).Addressable 7600 ∧
    disk.Readable (f.header.data disk.medium ++ f.header.index disk.medium) ∧
    f.length = 7600 ∧ f.Printed disk .empty sectors contents ∧
    (Header.pieces contents).map List.length = List.replicate 59 128 ++ [48] := by
  obtain ⟨m, f, hf, -, -, hlength, hread, -⟩ :=
    Header.exists_open_allocated 7600 64 (by decide) (by decide) (by decide)
  have hsmall : (SectorMap.empty 64).Addressable 7600 :=
    SectorMap.addressable_of_size_le (by decide) _
  obtain ⟨sectors, contents, hprinted⟩ :=
    @prints_what_is_read ⟨m, 64, {}⟩ f _ _ hf hsmall hread .empty
  refine ⟨⟨m, 64, {}⟩, f, sectors, contents, hf, hsmall, hread, hlength, hprinted, ?_⟩
  have hsize : contents.size = 7600 := hprinted.size_eq.trans hlength
  rw [Header.map_length_pieces, hsize]
  decide

/-- The print would list the direct sectors, and one more for the single block. -/
theorem Printed.sectors_eq_of_overlaid {m : Medium} {count : Nat} {p : FaultPlan} {f : OpenFile}
    {before : ByteArray} {sectors : List Int32} {contents : Array UInt8}
    (hprinted : f.Printed ⟨m, count, p⟩ before sectors contents) (hh : f.header.Overlaid m)
    (hread : Disk.Delivers ⟨m, count, p⟩ [28]) :
    sectors = (List.range 28).map Word.ofNat ++ 0 :: sectors.drop 29 := by
  have hlong : 28 < sectors.length := (hprinted.lt_length_iff 28).mpr (by
    rw [length, hh.length_eq]
    decide)
  have hsector (k : Nat) (hk : k ≤ 28) :
      sectors[k]? = some (((List.range 28).map Word.ofNat).getD k 0) := by
    have hk' : k < sectors.length := Nat.lt_of_le_of_lt hk hlong
    obtain ⟨disk', hact⟩ := hprinted.sectorOf_eq k hk'
    have hdeliver : Disk.Delivers ⟨m, count, p⟩ (if k < 28 then [] else [28]) := by
      split
      · exact Disk.Delivers.nil _
      · exact hread
    rw [(hh.follows_sectorOf hk).eval_of_delivers hdeliver] at hact
    injection hact with heq
    rw [List.getElem?_eq_getElem hk', heq]
  have hlist : ∀ k < 29, some (((List.range 28).map Word.ofNat).getD k 0)
      = ((List.range 28).map Word.ofNat ++ [0])[k]? := by decide
  have htake : sectors.take 29 = (List.range 28).map Word.ofNat ++ [0] := by
    refine List.ext_getElem? fun k => ?_
    by_cases hk : k < 29
    · rw [List.getElem?_take_of_lt hk, hsector k (by omega), hlist k hk]
    · rw [List.getElem?_eq_none (by simp; omega), List.getElem?_eq_none (by simp; omega)]
  rw [List.append_cons, ← htake, List.take_append_drop]

/--
A file whose empty double block lies over its single block. Its print stops after 28 sectors, and a
read goes on with what the empty block holds.
-/
theorem prints_less_than_is_read : ∃ (disk : Disk) (f : OpenFile),
    f.header.Allocated (.fullBut 0x10000001D (List.range 60 ++ [0x10000001C])) 7552 disk.medium ∧
    disk.Readable (f.header.data disk.medium ++ f.header.index disk.medium) ∧ f.length = 7552 ∧
    (f.header.data disk.medium).length = 28 ∧
    ¬ ∃ sectors contents, f.Printed disk .empty sectors contents := by
  obtain ⟨m, h, hf, hh, hm⟩ := @Header.exists_overlaid
    (.fullBut 0x10000001D (List.range 60 ++ [0x10000001C])) SectorMap.tidy_fullBut
    (SectorMap.free_fullBut (by decide) (by decide))
  obtain ⟨f, rfl⟩ : ∃ f : OpenFile, f.header = h := ⟨{ sector := 0, header := h }, rfl⟩
  have hdata : f.header.data m = List.range 28 := by
    rw [Header.data, hh.dataPointers_eq]
    exact Word.map_wide_ofNat (by decide)
  have hindex : f.header.index m = [28, 28] := congrArg (List.map Word.wide) hh.indexPointers_eq
  have hread : Disk.Readable ⟨m, 60, {}⟩ (f.header.data m ++ f.header.index m) :=
    Disk.readable_default (by rw [hdata, hindex]; decide) hm
  refine ⟨⟨m, 60, {}⟩, f, hf, hread, hh.length_eq, by rw [hdata, List.length_range], ?_⟩
  rintro ⟨sectors, contents, hprinted⟩
  have hsectors := hprinted.sectors_eq_of_overlaid hh
    (hread.delivers (by rw [hindex]; simp))
  obtain ⟨disk', hact, -⟩ := hprinted.print_eq
  have hprint : Follows m 60 _ _ _ := hh.legible.follows_print (by rw [hh.length_eq]; decide) .empty
  have hprint := Disk.eq_ok_of_runOn (hprint.eval_of_delivers (p := {}) (hread.delivers
    (List.append_subset.mpr ⟨List.subset_append_right .., List.subset_append_left ..⟩)))
  rw [hprint, hh.dataPointers_eq, hsectors] at hact
  injection hact with _ hheld
  injection hheld with _ hsink
  injection hsink with _ htext
  rw [ByteArray.append_assoc, ByteArray.append_assoc, ByteArray.append_right_inj] at htext
  exact Header.printedHeading_ne _ _ _ _ _ htext

end OpenFile

end IndexedDisk
