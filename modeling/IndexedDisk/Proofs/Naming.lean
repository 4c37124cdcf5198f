import IndexedDisk.Directory.Table

/-!
# Names in directories

A name that a directory takes is stored whole, so that the new entry says it again (`name_named`).
From then on the entry is found under its name, and all other names are found where they were
(`find?_setIfInBounds`).
-/

namespace IndexedDisk

/-! ## The bytes of a name -/

theorem ByteArray.toList_loop (bytes : ByteArray) (i : Nat) (r : List UInt8) :
    ByteArray.toList.loop bytes i r = r.reverse ++ bytes.data.toList.drop i := by
  induction i, r using ByteArray.toList.loop.induct bytes with
  | case1 i r hlt ih =>
    have hi : i < bytes.data.toList.length := by simpa using hlt
    have hget : bytes.get! i = bytes.data.toList[i] := by
      rw [Array.getElem_toList]
      exact getElem!_pos bytes.data i (by simpa using hlt)
    rw [ByteArray.toList.loop, if_pos hlt, ih, List.drop_eq_getElem_cons hi, hget,
      List.reverse_cons, List.append_assoc, List.singleton_append]
  | case2 i r hge =>
    have hle : bytes.data.toList.length ≤ i := by simpa using hge
    rw [ByteArray.toList.loop, if_neg hge, List.drop_eq_nil_of_le hle, List.append_nil]

theorem ByteArray.toList_eq (bytes : ByteArray) : bytes.toList = bytes.data.toList := by
  rw [ByteArray.toList, ByteArray.toList_loop, List.reverse_nil, List.nil_append, List.drop_zero]

theorem ne_zero_of_mem_utf8EncodeChar {c : Char} (hc : c.toNat ≠ 0) {b : UInt8}
    (hb : b ∈ String.utf8EncodeChar c) : b ≠ 0 := by
  have hne {n : Nat} (hn : n % 256 ≠ 0) : UInt8.ofNat n ≠ 0 := by
    intro h
    have := congrArg UInt8.toNat h
    simp at this
    omega
  have hpos : c.val.toNat ≠ 0 := hc
  unfold String.utf8EncodeChar at hb
  dsimp only at hb
  split at hb
  · rw [List.mem_singleton.mp hb]
    exact hne (by omega)
  split at hb
  · simp only [List.mem_cons, List.not_mem_nil, or_false] at hb
    rcases hb with rfl | rfl <;> exact hne (by omega)
  split at hb
  · simp only [List.mem_cons, List.not_mem_nil, or_false] at hb
    rcases hb with rfl | rfl | rfl <;> exact hne (by omega)
  · simp only [List.mem_cons, List.not_mem_nil, or_false] at hb
    rcases hb with rfl | rfl | rfl | rfl <;> exact hne (by omega)

theorem ne_zero_of_mem_toUTF8 {name : String} (hname : ∀ c ∈ name.toList, c.toNat ≠ 0) {b : UInt8}
    (hb : b ∈ name.toUTF8.toList) : b ≠ 0 := by
  rw [ByteArray.toList_eq, String.toUTF8_eq_toByteArray, ← String.utf8Encode_toList,
    List.utf8Encode, List.toList_data_toByteArray] at hb
  obtain ⟨c, hc, hb⟩ := List.mem_flatMap.mp hb
  exact ne_zero_of_mem_utf8EncodeChar (hname c hc) hb

/-! ## Storing a name -/

namespace Entry

theorem label_named {name : String} (hlength : name.utf8ByteSize ≤ maxNameLength) (sector : Int32)
    (kind : EntryKind) : (named name sector kind).label.toList
      = name.toUTF8.toList ++ List.replicate (20 - name.utf8ByteSize) 0 := by
  have hsize : name.toUTF8.toList.length = name.utf8ByteSize := by
    rw [ByteArray.toList_eq, Array.length_toList]
    rfl
  have hle : name.utf8ByteSize ≤ 19 := hlength
  apply List.ext_getElem
  · rw [Vector.length_toList, List.length_append, List.length_replicate]
    omega
  · intro i hi _
    have hlt : i < 20 := by simpa using hi
    rw [Vector.getElem_toList, List.getElem_append]
    simp only [named, Vector.getElem_ofFn]
    split
    · next h => rw [List.getD_eq_getElem?_getD, List.getElem?_eq_getElem h, Option.getD_some]
    · next h =>
      rw [List.getD_eq_getElem?_getD, List.getElem?_eq_none (Nat.le_of_not_lt h), Option.getD_none,
        List.getElem_replicate]

theorem name_named {name : String} (hlength : name.utf8ByteSize ≤ maxNameLength)
    (hname : ∀ c ∈ name.toList, c.toNat ≠ 0) (sector : Int32) (kind : EntryKind) :
    (named name sector kind).name = name := by
  have hsize : name.toUTF8.toList.length = name.utf8ByteSize := by
    rw [ByteArray.toList_eq, Array.length_toList]
    rfl
  have hle : name.utf8ByteSize ≤ 19 := hlength
  have hzero : ∃ rest, List.replicate (20 - name.utf8ByteSize) (0 : UInt8) = 0 :: rest :=
    ⟨List.replicate (19 - name.utf8ByteSize) 0, by
      rw [← List.replicate_succ]
      congr 1
      omega⟩
  obtain ⟨rest, hrest⟩ := hzero
  have hbytes : (named name sector kind).nameBytes = name.toUTF8.toList := by
    rw [nameBytes, label_named hlength, hrest, List.takeWhile_append_of_pos fun b hb => by
      simpa using ne_zero_of_mem_toUTF8 hname hb]
    rw [List.takeWhile_cons_of_neg (by simp), List.append_nil, List.take_of_length_le]
    rw [hsize]
    exact hlength
  have hvalid : (String.fromUTF8? name.toUTF8) = some name := by
    rw [String.fromUTF8?, String.toUTF8_eq_toByteArray, dif_pos name.isValidUTF8]
    rfl
  rw [Entry.name, hbytes, ByteArray.toList_eq]
  exact congrArg (·.getD "") hvalid

end Entry

namespace Directory

variable {d d' : Directory} {name : String}

theorem find?_setIfInBounds {i : Nat} {e : Entry} (hi : i < d.slots.size)
    (hfree : d.slots[i].inUse = false) (hused : e.inUse = true) (hnew : d.find? e.name = none)
    (name : String) :
    find? ⟨d.slots.setIfInBounds i e⟩ name = if name = e.name then some e else d.find? name := by
  have hi' : i < d.slots.toList.length := by simpa using hi
  have hold : d.slots.toList
      = d.slots.toList.take i ++ d.slots.toList[i] :: d.slots.toList.drop (i + 1) := by
    rw [List.getElem_cons_drop, List.take_append_drop]
  have hset : (d.slots.setIfInBounds i e).toList
      = d.slots.toList.take i ++ e :: d.slots.toList.drop (i + 1) := by
    rw [Array.toList_setIfInBounds, List.set_eq_take_append_cons_drop, if_pos hi']
  -- the slot that is taken held no name
  have hnone : holds name d.slots.toList[i] = false := by simp [holds, hfree]
  have hfind : d.find? name = ((d.slots.toList.take i).find? (holds name)).or
      ((d.slots.toList.drop (i + 1)).find? (holds name)) := by
    rw [find?, ← Array.find?_toList]
    refine (congrArg (List.find? (holds name)) hold).trans ?_
    rw [List.find?_append, List.find?_cons_of_neg (by rw [hnone]; nofun)]
  have hfind' : find? ⟨d.slots.setIfInBounds i e⟩ name
      = ((d.slots.toList.take i).find? (holds name)).or
        ((e :: d.slots.toList.drop (i + 1)).find? (holds name)) := by
    rw [find?, ← Array.find?_toList, hset, List.find?_append]
  by_cases hname : name = e.name
  · subst hname
    rw [hfind, Option.or_eq_none_iff] at hnew
    rw [hfind', hnew.1, Option.none_or, List.find?_cons_of_pos (by simp [holds, hused]), if_pos rfl]
  · rw [hfind', hfind, if_neg hname, List.find?_cons_of_neg]
    simpa [holds] using fun _ => Ne.symm hname

end Directory

end IndexedDisk
