import IndexedDisk.Proofs.Making

/-!
# Directories as bounded maps

What calls do to a directory that began with blank slots. Which entries are in use can be told from
the calls and their replies alone: an entry stands from the call that added it up to the next call
on its name that is done (`Stands`). The slots add nothing to this but an order, and that order
never changes.

* `effect_respond`: what one call does to any directory. It changes one slot, or it is refused.
* `Faithful.respond`, `Faithful.run`: the slots in use hold what stands, and each name once.
* `directories_are_bounded_maps`: both together, after any calls.
-/

namespace IndexedDisk

namespace Directory

/-- What is asked of a directory. -/
inductive Call where
  | add (name : String) (sector : Int32) (kind : EntryKind)
  | remove (name : String)
deriving DecidableEq

/-- The name that a call is about. -/
def Call.name : Call → String
  | add name _ _ => name
  | remove name => name

/-- What a call makes of a directory. -/
def call (d : Directory) : Call → Except Refusal Directory
  | .add name sector kind => d.add name sector kind
  | .remove name => d.remove name

/-- The refusal of a call, if it is refused, and the directory that is left. -/
def respond (d : Directory) (c : Call) : Option Refusal × Directory :=
  match d.call c with
  | .ok d' => (none, d')
  | .error cause => (some cause, d)

/-- Calls with their replies, the oldest first. The reply to a call that was done is `none`. -/
abbrev History : Type := List (Call × Option Refusal)

/-- What calls are answered, one after the other, and the directory that is left. -/
def run : List Call → Directory → History × Directory
  | [], d => ([], d)
  | c :: calls, d =>
    let (reply, d') := d.respond c
    let (history, d'') := run calls d'
    ((c, reply) :: history, d'')

/-- Of the calls on the name that were done, the last one added it with this sector and kind. -/
def Stands (history : History) (name : String) (sector : Int32) (kind : EntryKind) : Prop :=
  ∃ before after, history = before ++ (.add name sector kind, none) :: after ∧
    ∀ c, (c, none) ∈ after → c.name ≠ name

/-- A name that a slot has room for, and that is read back from it. -/
structure Storable (name : String) : Prop where
  ne_empty : name ≠ ""
  length_le : name.utf8ByteSize ≤ maxNameLength
  no_nul : ∀ c ∈ name.toList, c.toNat ≠ 0

/-- What can keep a name from being added, in the order in which it is looked for. -/
inductive Objection (d : Directory) (name : String) : Nat → Refusal → Prop
  | tooLong (h : maxNameLength < name.utf8ByteSize) : Objection d name 0 (.nameTooLong name)
  | bad (h : name = "" ∨ ∃ c ∈ name.toList, c.toNat = 0) :
      Objection d name 1 (.invalidPath (.badName name))
  | taken {e} (h : d.find? name = some e) : Objection d name 2 (.alreadyExists name)
  | full (h : ∀ e ∈ d.slots, e.inUse = true) : Objection d name 3 .directoryFull

/-- Slot `i` is the first that is not in use. -/
def FirstFree (d : Directory) (i : Nat) : Prop :=
  (∃ e, d.slots[i]? = some e ∧ e.inUse = false) ∧
    ∀ j < i, ∃ e, d.slots[j]? = some e ∧ e.inUse = true

/-- Slot `i` holds `e` after a change. No other slot has changed, and no byte of another slot. -/
structure Changed (d : Directory) (i : Nat) (e : Entry) (d' : Directory) : Prop where
  size_eq : d'.size = d.size
  slot : d'.slots[i]? = some e
  others : ∀ j ≠ i, d'.slots[j]? = d.slots[j]?
  bytes : ∀ k, k / entrySize ≠ i → d'.image[k]? = d.image[k]?

/-- What a call does. -/
inductive Effect (d : Directory) : Call → Option Refusal × Directory → Prop
  | refused {name sector kind cause} (h : First (Objection d name) cause) :
      Effect d (.add name sector kind) (some cause, d)
  | added {name sector kind i d'} (h : Clear (Objection d name) 4) (hi : d.FirstFree i)
      (hd : d.Changed i (.named name sector kind) d') :
      Effect d (.add name sector kind) (none, d')
  | missing {name} (h : d.find? name = none) :
      Effect d (.remove name) (some (.notFound name), d)
  | removed {name e i d'} (h : d.find? name = some e) (hi : d.findIdx? name = some i)
      (hd : d.Changed i e.retired d') : Effect d (.remove name) (none, d')

/-- A slot that was filled with a name holds it to the byte, before zeros. -/
structure Keeps (e : Entry) (name : String) (sector : Int32) (kind : EntryKind) : Prop
    extends Storable name where
  eq : e = .named name sector kind
  name_eq : e.name = name
  label_eq : e.label.toList
    = name.toUTF8.toList ++ List.replicate (20 - name.utf8ByteSize) 0

/-- The slots in use are what is left of a history. -/
structure Recalls (size : Nat) (history : History) (d : Directory) : Prop where
  size_eq : d.size = size
  keeps : ∀ (i : Nat) (e : Entry), d.slots[i]? = some e → e.inUse = true →
    ∃ name sector kind, Keeps e name sector kind ∧ Stands history name sector kind
  distinct : ∀ (i j : Nat) (e e' : Entry), d.slots[i]? = some e → d.slots[j]? = some e' →
    e.inUse = true → e'.inUse = true → e.name = e'.name → i = j
  find?_iff : ∀ name sector kind,
    (∃ e, d.find? name = some e ∧ e.sector = sector ∧ e.kind = kind) ↔
      Stands history name sector kind
  find?_eq_none_iff : ∀ name, d.find? name = none ↔
    ∀ sector kind, ¬ Stands history name sector kind
  list_eq : d.list = (List.range size).filterMap fun i => d.slots[i]?.filter (·.inUse)
  isEmpty_iff : d.isEmpty = true ↔ d.list = []

variable {d d' : Directory} {name : String} {sector : Int32} {kind : EntryKind}

/-! ## One slot -/

theorem getElem?_image (d : Directory) (k : Nat) : d.image[k]? = d.slots[k / entrySize]?.map
    fun e => have : k % entrySize < 32 := Nat.mod_lt _ (by decide); e.bytes[k % entrySize] := by
  obtain ⟨i, j, hj, rfl⟩ : ∃ i j, j < 32 ∧ k = entrySize * i + j :=
    ⟨k / entrySize, k % entrySize, Nat.mod_lt _ (by decide), (Nat.div_add_mod ..).symm⟩
  have hdiv : (entrySize * i + j) / entrySize = i := by
    simp only [entrySize]
    omega
  have hmod : (entrySize * i + j) % entrySize = j := by
    simp only [entrySize]
    omega
  simp only [hdiv, hmod]
  by_cases hi : i < d.slots.size
  · have hlt : entrySize * i + j < d.image.size := by
      simp only [size_image, fileSize, size, entrySize] at *
      omega
    rw [Array.getElem?_eq_getElem hlt, Array.getElem?_eq_getElem hi, Option.map_some,
      getElem_image d hi hj hlt]
  · have hge : d.image.size ≤ entrySize * i + j := by
      simp only [size_image, fileSize, size, entrySize] at *
      omega
    rw [Array.getElem?_eq_none hge, Array.getElem?_eq_none (Nat.le_of_not_lt hi), Option.map_none]

theorem changed_of_slots {i : Nat} {e : Entry} (hsize : d'.size = d.size)
    (hi : d'.slots[i]? = some e) (h : ∀ j ≠ i, d'.slots[j]? = d.slots[j]?) : d.Changed i e d' where
  size_eq := hsize
  slot := hi
  others := h
  bytes k hk := by rw [getElem?_image, getElem?_image, h _ hk]

theorem changed_setIfInBounds {i : Nat} (hi : i < d.slots.size) (e : Entry) :
    d.Changed i e ⟨d.slots.setIfInBounds i e⟩ :=
  changed_of_slots (by simp [size])
    (by rw [Array.getElem?_setIfInBounds, if_pos rfl, if_pos hi]) fun j hj => by
      rw [Array.getElem?_setIfInBounds, if_neg (Ne.symm hj)]

theorem changed_modify {i : Nat} {e : Entry} (hi : d.slots[i]? = some e) (f : Entry → Entry) :
    d.Changed i (f e) ⟨d.slots.modify i f⟩ :=
  changed_of_slots (by simp [size])
    (by rw [Array.getElem?_modify, if_pos rfl, hi, Option.map_some]) fun j hj => by
      rw [Array.getElem?_modify, if_neg (Ne.symm hj)]

/-! ## One call -/

theorem isBadName_iff :
    isBadName name = true ↔ name = "" ∨ ∃ c ∈ name.toList, c.toNat = 0 := by
  simp [isBadName, String.isEmpty_iff]

theorem storable_of_clear (h : Clear (Objection d name) 4) : Storable name where
  ne_empty hempty := h 1 (by decide) _ (.bad (Or.inl hempty))
  length_le := Nat.le_of_not_lt fun hlong => h 0 (by decide) _ (.tooLong hlong)
  no_nul c hc hnul := h 1 (by decide) _ (.bad (Or.inr ⟨c, hc, hnul⟩))

theorem find?_eq_none_of_clear (h : Clear (Objection d name) 4) : d.find? name = none :=
  Option.eq_none_iff_forall_ne_some.mpr fun _ he => h 2 (by decide) _ (.taken he)

/-- A name is added to the first slot that is not in use, unless there is an objection. -/
theorem add_cases (d : Directory) (name : String) (sector : Int32) (kind : EntryKind) :
    (∃ cause, d.add name sector kind = .error cause ∧ First (Objection d name) cause) ∨
      ∃ i d', d.add name sector kind = .ok d' ∧ Clear (Objection d name) 4 ∧ d.FirstFree i ∧
        d.Changed i (.named name sector kind) d' := by
  have hclear : Clear (Objection d name) 0 := nofun
  unfold add
  by_cases hlong : maxNameLength < name.utf8ByteSize
  · exact Or.inl ⟨_, if_pos hlong, 0, .tooLong hlong, hclear⟩
  have hclear := hclear.succ fun cause h => by
    cases h with
    | tooLong h => exact hlong h
  rw [if_neg hlong]
  by_cases hbad : isBadName name = true
  · exact Or.inl ⟨_, if_pos hbad, 1, .bad (isBadName_iff.mp hbad), hclear⟩
  have hclear := hclear.succ fun cause h => by
    cases h with
    | bad h => exact hbad (isBadName_iff.mpr h)
  rw [if_neg hbad]
  cases hfind : d.find? name with
  | some e =>
    obtain ⟨i, hidx, -⟩ := find?_eq_some hfind
    rw [hidx]
    exact Or.inl ⟨_, if_pos rfl, 2, .taken hfind, hclear⟩
  | none =>
    have hclear := hclear.succ fun cause h => by
      cases h with
      | taken h => rw [hfind] at h; cases h
    rw [findIdx?_eq_none_of_find? hfind, if_neg nofun]
    cases hidx : d.slots.findIdx? (! ·.inUse) with
    | none =>
      refine Or.inl ⟨_, rfl, 3, .full fun e he => ?_, hclear⟩
      simpa using Array.findIdx?_eq_none_iff.mp hidx e he
    | some i =>
      obtain ⟨hi, hfree, hbefore⟩ := Array.findIdx?_eq_some_iff_getElem.mp hidx
      refine Or.inr ⟨i, _, rfl, hclear.succ fun cause h => ?_,
        ⟨⟨_, Array.getElem?_eq_getElem hi, by simpa using hfree⟩, fun j hj =>
          ⟨_, Array.getElem?_eq_getElem (Nat.lt_trans hj hi), by simpa using hbefore j hj⟩⟩,
        changed_setIfInBounds hi _⟩
      cases h with
      | full h => simp [h _ (Array.getElem_mem hi)] at hfree

theorem effect_respond (d : Directory) (c : Call) : Effect d c (d.respond c) := by
  cases c with
  | add name sector kind =>
    rcases add_cases d name sector kind with ⟨cause, hadd, h⟩ | ⟨i, d', hadd, h, hi, hd⟩
    · simp only [respond, call, hadd]
      exact .refused h
    · simp only [respond, call, hadd]
      exact .added h hi hd
  | remove name =>
    cases hfind : d.find? name with
    | none =>
      have hremove : d.remove name = .error (.notFound name) := by
        rw [remove, findIdx?_eq_none_of_find? hfind]
      simp only [respond, call, hremove]
      exact .missing hfind
    | some e =>
      obtain ⟨i, hidx, hi, -⟩ := find?_eq_some hfind
      have hremove : d.remove name = .ok ⟨d.slots.modify i .retired⟩ := by rw [remove, hidx]
      simp only [respond, call, hremove]
      exact .removed hfind hidx (changed_modify hi _)

theorem Objection.lt {k : Nat} {cause : Refusal} (h : Objection d name k cause) : k < 4 := by
  cases h <;> decide

theorem Objection.functional {k : Nat} {cause cause' : Refusal} (h : Objection d name k cause)
    (h' : Objection d name k cause') : cause = cause' := by
  cases h <;> cases h' <;> rfl

theorem FirstFree.le {i j : Nat} (hi : d.FirstFree i) (hj : d.FirstFree j) : i ≤ j := by
  refine Nat.le_of_not_lt fun hlt => ?_
  obtain ⟨e, he, hused⟩ := hi.2 j hlt
  obtain ⟨⟨e', he', hfree⟩, -⟩ := hj
  obtain rfl : e = e' := Option.some.inj (he.symm.trans he')
  rw [hused] at hfree
  cases hfree

theorem Changed.unique {i : Nat} {e : Entry} {d'' : Directory} (h : d.Changed i e d')
    (h' : d.Changed i e d'') : d' = d'' := by
  refine congrArg Directory.mk (Array.ext_getElem? fun j => ?_)
  by_cases hj : j = i
  · rw [hj, h.slot, h'.slot]
  · rw [h.others j hj, h'.others j hj]

theorem Effect.unique {c : Call} {result result' : Option Refusal × Directory}
    (h : Effect d c result) (h' : Effect d c result') : result = result' := by
  cases h with
  | refused hfirst =>
    cases h' with
    | refused hfirst' => rw [hfirst.unique hfirst' fun _ _ _ => Objection.functional]
    | added hclear =>
      obtain ⟨k, hk, -⟩ := hfirst
      exact absurd hk (hclear k hk.lt _)
  | added hclear hi hd =>
    cases h' with
    | refused hfirst =>
      obtain ⟨k, hk, -⟩ := hfirst
      exact absurd hk (hclear k hk.lt _)
    | added _ hi' hd' =>
      obtain rfl := Nat.le_antisymm (hi.le hi') (hi'.le hi)
      rw [hd.unique hd']
  | missing hnone =>
    cases h' with
    | missing => rfl
    | removed hfind => rw [hnone] at hfind; cases hfind
  | removed hfind hi hd =>
    cases h' with
    | missing hnone => rw [hnone] at hfind; cases hfind
    | removed hfind' hi' hd' =>
      obtain rfl := Option.some.inj (hfind.symm.trans hfind')
      obtain rfl := Option.some.inj (hi.symm.trans hi')
      rw [hd.unique hd']

/-- The cases of an effect are all there are, and exclude each other. -/
theorem respond_eq_iff {c : Call} {result : Option Refusal × Directory} :
    d.respond c = result ↔ Effect d c result :=
  ⟨fun h => h ▸ effect_respond d c, fun h => (effect_respond d c).unique h⟩

/-! ## What stands -/

theorem stands_concat {history : History} {c : Call} {reply : Option Refusal} :
    Stands (history ++ [(c, reply)]) name sector kind ↔
      (reply = none ∧ c = .add name sector kind) ∨
        (Stands history name sector kind ∧ (reply = none → c.name ≠ name)) := by
  constructor
  · rintro ⟨before, after, heq, hafter⟩
    rcases List.eq_nil_or_concat after with rfl | ⟨after, x, rfl⟩
    · obtain ⟨-, hx⟩ := List.append_inj' heq rfl
      cases hx
      exact Or.inl ⟨rfl, rfl⟩
    · rw [List.concat_eq_append, ← List.cons_append, ← List.append_assoc] at heq
      obtain ⟨rfl, hx⟩ := List.append_inj' heq rfl
      cases hx
      refine Or.inr ⟨⟨before, after, rfl, fun c hc => hafter c (by simp [hc])⟩, ?_⟩
      rintro rfl
      exact hafter _ (by simp)
  · rintro (⟨rfl, rfl⟩ | ⟨⟨before, after, rfl, hafter⟩, hc⟩)
    · exact ⟨history, [], rfl, nofun⟩
    · refine ⟨before, after ++ [(c, reply)], by simp, fun c' hc' => ?_⟩
      rcases List.mem_append.mp hc' with hc' | hc'
      · exact hafter c' hc'
      · cases List.mem_singleton.mp hc'
        exact hc rfl

theorem not_stands_nil : ¬ Stands [] name sector kind := by
  rintro ⟨before, after, heq, -⟩
  simp at heq

/-! ## All calls -/

theorem filter_eq_filterMap_range {α : Type} (p : α → Bool) (l : List α) :
    l.filter p = (List.range l.length).filterMap fun i => l[i]?.filter p := by
  induction l with
  | nil => rfl
  | cons a l ih =>
    rw [List.length_cons, List.range_succ_eq_map, List.filterMap_cons, List.filterMap_map,
      List.filter_cons, ih]
    cases hp : p a <;> simp [Option.filter, hp]

/-- What stands lies in a slot of its own, and nothing else is in use. -/
structure Faithful (size : Nat) (history : History) (d : Directory) : Prop where
  size_eq : d.size = size
  named : ∀ (i : Nat) (e : Entry), d.slots[i]? = some e → e.inUse = true →
    ∃ name sector kind, Storable name ∧ e = .named name sector kind ∧
      Stands history name sector kind
  exists_slot : ∀ name sector kind, Stands history name sector kind →
    Storable name ∧ ∃ i : Nat, d.slots[i]? = some (.named name sector kind)
  distinct : ∀ (i j : Nat) (e e' : Entry), d.slots[i]? = some e → d.slots[j]? = some e' →
    e.inUse = true → e'.inUse = true → e.name = e'.name → i = j

theorem Storable.name_named (h : Storable name) (sector : Int32) (kind : EntryKind) :
    (Entry.named name sector kind).name = name :=
  Entry.name_named h.length_le h.no_nul sector kind

theorem faithful_empty (size : Nat) : Faithful size [] (empty size) := by
  have hfree (i : Nat) (e : Entry) (hi : (empty size).slots[i]? = some e) : e.inUse = false := by
    obtain ⟨-, rfl⟩ : i < size ∧ e = .blank := by
      simpa [empty, Array.getElem?_replicate, eq_comm] using hi
    rfl
  exact {
    size_eq := by simp [empty, Directory.size]
    named := fun i e hi hused => by simp [hfree i e hi] at hused
    exists_slot := fun name sector kind h => absurd h not_stands_nil
    distinct := fun i j e e' hi _ hused => by simp [hfree i e hi] at hused }

namespace Faithful

variable {size : Nat} {history : History} {i : Nat} {e : Entry} (h : Faithful size history d)
include h

theorem refused (c : Call) (cause : Refusal) :
    Faithful size (history ++ [(c, some cause)]) d := by
  have hstands (name : String) (sector : Int32) (kind : EntryKind) :
      Stands (history ++ [(c, some cause)]) name sector kind ↔ Stands history name sector kind := by
    rw [stands_concat]
    exact ⟨fun h => h.elim (fun h => nomatch h.1) (·.1), fun h => Or.inr ⟨h, nofun⟩⟩
  refine ⟨h.size_eq, ?_, ?_, h.distinct⟩
  · simpa only [hstands] using h.named
  · simpa only [hstands] using h.exists_slot

theorem added (hname : Storable name) (hnone : d.find? name = none) (hi : d.slots[i]? = some e)
    (hfree : e.inUse = false) (hd : d.Changed i (.named name sector kind) d') :
    Faithful size (history ++ [(.add name sector kind, none)]) d' where
  size_eq := hd.size_eq.trans h.size_eq
  named j e' hj hused := by
    by_cases hij : j = i
    · subst hij
      obtain rfl : Entry.named name sector kind = e' := Option.some.inj (hd.slot.symm.trans hj)
      exact ⟨name, sector, kind, hname, rfl, stands_concat.mpr (Or.inl ⟨rfl, rfl⟩)⟩
    · rw [hd.others j hij] at hj
      obtain ⟨name', sector', kind', hname', rfl, hstands⟩ := h.named j e' hj hused
      have hne : name' ≠ name := by
        rw [← hname'.name_named sector' kind']
        exact name_ne_of_find?_eq_none hnone hj hused
      exact ⟨name', sector', kind', hname', rfl,
        stands_concat.mpr (Or.inr ⟨hstands, fun _ heq => hne heq.symm⟩)⟩
  exists_slot name' sector' kind' hstands := by
    rcases stands_concat.mp hstands with ⟨-, heq⟩ | ⟨hstands, -⟩
    · cases heq
      exact ⟨hname, i, hd.slot⟩
    · obtain ⟨hname', j, hj⟩ := h.exists_slot name' sector' kind' hstands
      refine ⟨hname', j, ?_⟩
      -- the slot that was free is not the one of a name that stood
      rw [hd.others j, hj]
      rintro rfl
      rw [hi, Option.some.injEq] at hj
      rw [hj] at hfree
      cases hfree
  distinct j k e₁ e₂ hj hk hused₁ hused₂ heq := by
    have hnew {l : Nat} {e' : Entry} (hl : d.slots[l]? = some e') (hused : e'.inUse = true) :
        (Entry.named name sector kind).name ≠ e'.name := by
      rw [hname.name_named]
      exact (name_ne_of_find?_eq_none hnone hl hused).symm
    by_cases hji : j = i <;> by_cases hki : k = i
    · rw [hji, hki]
    · subst hji
      rw [hd.others k hki] at hk
      rw [hd.slot, Option.some.injEq] at hj
      exact absurd (hj ▸ heq) (hnew hk hused₂)
    · subst hki
      rw [hd.others j hji] at hj
      rw [hd.slot, Option.some.injEq] at hk
      exact absurd (hk ▸ heq).symm (hnew hj hused₁)
    · rw [hd.others j hji] at hj
      rw [hd.others k hki] at hk
      exact h.distinct j k e₁ e₂ hj hk hused₁ hused₂ heq

theorem removed (hfind : d.find? name = some e) (hidx : d.findIdx? name = some i)
    (hd : d.Changed i e.retired d') :
    Faithful size (history ++ [(.remove name, none)]) d' := by
  obtain ⟨j, hidx', hi, hused, hname⟩ := find?_eq_some hfind
  obtain rfl : i = j := Option.some.inj (hidx.symm.trans hidx')
  -- the slots that are in use now are those of the other names
  have hkept {j : Nat} {e' : Entry} (hj : d'.slots[j]? = some e') (hused' : e'.inUse = true) :
      d.slots[j]? = some e' ∧ e'.name ≠ name := by
    have hji : j ≠ i := by
      rintro rfl
      rw [hd.slot, Option.some.injEq] at hj
      rw [← hj] at hused'
      cases hused'
    rw [hd.others j hji] at hj
    exact ⟨hj, fun heq => hji (h.distinct j i e' e hj hi hused' hused (heq.trans hname.symm))⟩
  exact {
    size_eq := hd.size_eq.trans h.size_eq
    named := fun j e' hj hused' => by
      obtain ⟨hj, hne⟩ := hkept hj hused'
      obtain ⟨name', sector', kind', hname', rfl, hstands⟩ := h.named j e' hj hused'
      rw [hname'.name_named] at hne
      exact ⟨name', sector', kind', hname', rfl,
        stands_concat.mpr (Or.inr ⟨hstands, fun _ heq => hne heq.symm⟩)⟩
    exists_slot := fun name' sector' kind' hstands => by
      rcases stands_concat.mp hstands with ⟨-, heq⟩ | ⟨hstands, hne⟩
      · cases heq
      · obtain ⟨hname', j, hj⟩ := h.exists_slot name' sector' kind' hstands
        refine ⟨hname', j, ?_⟩
        rw [hd.others j, hj]
        rintro rfl
        rw [hi, Option.some.injEq] at hj
        rw [hj, hname'.name_named] at hname
        exact hne rfl hname.symm
    distinct := fun j k e₁ e₂ hj hk hused₁ hused₂ heq =>
      h.distinct j k e₁ e₂ (hkept hj hused₁).1 (hkept hk hused₂).1 hused₁ hused₂ heq }

theorem respond (c : Call) :
    Faithful size (history ++ [(c, (d.respond c).1)]) (d.respond c).2 := by
  have heffect := effect_respond d c
  generalize d.respond c = result at heffect
  cases heffect with
  | refused => exact h.refused _ _
  | added hclear hfirst hd =>
    obtain ⟨⟨e, hi, hfree⟩, -⟩ := hfirst
    exact h.added (storable_of_clear hclear) (find?_eq_none_of_clear hclear) hi hfree hd
  | missing => exact h.refused _ _
  | removed hfind hi hd => exact h.removed hfind hi hd

theorem run (calls : List Call) :
    Faithful size (history ++ (Directory.run calls d).1) (Directory.run calls d).2 := by
  induction calls generalizing history d with
  | nil => rwa [Directory.run, List.append_nil]
  | cons c calls ih =>
    have hrest := ih (h.respond c)
    rwa [List.append_assoc, List.singleton_append] at hrest

theorem find?_iff : (∃ e, d.find? name = some e ∧ e.sector = sector ∧ e.kind = kind) ↔
    Stands history name sector kind := by
  constructor
  · rintro ⟨e, hfind, rfl, rfl⟩
    obtain ⟨i, -, hi, hused, hname⟩ := find?_eq_some hfind
    obtain ⟨name', sector', kind', hname', rfl, hstands⟩ := h.named i e hi hused
    rw [hname'.name_named] at hname
    rw [Entry.kind_named]
    exact hname ▸ hstands
  · intro hstands
    obtain ⟨hname, i, hi⟩ := h.exists_slot name sector kind hstands
    have hfind := find?_eq_of_distinct hi rfl fun j e' hj hused heq =>
      h.distinct j i e' _ hj hi hused rfl heq
    rw [hname.name_named] at hfind
    exact ⟨_, hfind, rfl, Entry.kind_named ..⟩

theorem recalls : Recalls size history d where
  size_eq := h.size_eq
  keeps i e hi hused := by
    obtain ⟨name, sector, kind, hname, rfl, hstands⟩ := h.named i e hi hused
    exact ⟨name, sector, kind,
      { toStorable := hname
        eq := rfl
        name_eq := hname.name_named sector kind
        label_eq := Entry.label_named hname.length_le sector kind }, hstands⟩
  distinct := h.distinct
  find?_iff name sector kind := h.find?_iff
  find?_eq_none_iff name := by
    constructor
    · intro hnone sector kind hstands
      obtain ⟨e, he, -⟩ := h.find?_iff.mpr hstands
      rw [hnone] at he
      cases he
    · exact fun hnot => Option.eq_none_iff_forall_ne_some.mpr fun e he =>
        hnot e.sector e.kind (h.find?_iff.mp ⟨e, he, rfl, rfl⟩)
  list_eq := by
    simp only [list, filter_eq_filterMap_range, Array.length_toList, Array.getElem?_toList,
      ← h.size_eq, Directory.size]
  isEmpty_iff := isEmpty_iff

end Faithful

/-! ## Bounded maps -/

/--
**Directories are bounded maps.** Take any calls on a new directory of any size, whatever the names,
the sectors and the kinds, and however they are answered. A slot in use then holds a name that was
added, to the byte, and the name is not empty, has at most 19 bytes and no NUL; no two slots in use
hold the same name. A name is found if and only if it stands, with the sector and the kind that it
was last added with. The entries in use are listed in the order of their slots, and a directory is
empty if there are none. Whatever comes next is refused or changes one slot: a name is added to the
first slot that is not in use, unless it is too long or bad, is found already, or all slots are in
use, and of these causes the first is told; a name that is found is removed, and one that is not
found is not.
-/
theorem directories_are_bounded_maps {size : Nat} {d : Directory} (h : new size = .ok d)
    (calls : List Call) : Recalls size (run calls d).1 (run calls d).2 ∧
      ∀ c result, (run calls d).2.respond c = result ↔ Effect (run calls d).2 c result := by
  obtain ⟨-, rfl⟩ := new_eq_ok_iff.mp h
  exact ⟨((faithful_empty size).run calls).recalls, fun _ _ => respond_eq_iff⟩

/-- Two slots, names that are not taken, and a name of nineteen bytes in ten characters. -/
theorem directories_are_bounded_maps_two : ∃ calls history d, calls = [.add "a" 7 .file,
      .add "éééééééééx" 8 .directory, .add "c" 9 .file, .remove "a", .remove "a", .add "" 1 .file,
      .add "a\x00" 1 .file, .add "éééééééééé" 1 .file, .add "éééééééééx" 1 .file,
      .add "c" 10 .file] ∧
    new 2 = .ok (empty 2) ∧ run calls (empty 2) = (history, d) ∧
    history.map (·.2) = [none, none, some .directoryFull, none, some (.notFound "a"),
      some (.invalidPath (.badName "")), some (.invalidPath (.badName "a\x00")),
      some (.nameTooLong "éééééééééé"), some (.alreadyExists "éééééééééx"), none] ∧
    d.list.map (·.name) = ["c", "éééééééééx"] ∧ Recalls 2 history d ∧
    Stands history "c" 10 .file ∧ ∀ sector kind, ¬ Stands history "a" sector kind := by
  have hnew : new 2 = .ok (empty 2) := new_eq_ok_iff.mpr ⟨by decide, rfl⟩
  have hrecalls (calls : List Call) := (directories_are_bounded_maps hnew calls).1
  refine ⟨_, _, _, rfl, hnew, (Prod.eta _).symm, ?_, ?_, hrecalls _,
    ((hrecalls _).find?_iff "c" 10 .file).mp ?_, ((hrecalls _).find?_eq_none_iff "a").mp ?_⟩
  · decide +kernel
  · decide +kernel
  · decide +kernel
  · decide +kernel

end Directory

end IndexedDisk
