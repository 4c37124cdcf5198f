import IndexedDisk.Proofs.Words
import Mathlib.Data.Finset.Max
import Mathlib.Data.Finset.Sort

/-!
# Sector maps and sets

A sector map is a set of sectors below its size. What keeps track of sectors, be it a map, words or
a set, answers calls and can be looked at (`Keeper`); a call that is refused leaves all as it was.
One keeper follows another if they answer every call alike and look alike at all times
(`Keeper.Follower`), and then they do so through all calls (`Follower.run`).

* `follower_maps`: maps follow sets.
* `follower_words`: words follow maps.
* `maps_are_sets`: from a new map on, maps and words are sets through all calls.
-/

namespace IndexedDisk

/-- What is asked of a keeper of sectors. -/
inductive Call where
  | mark (sector : Nat)
  | release (sector : Nat)
  | take

/-- What a keeper of sectors answers. -/
inductive Reply where
  | done
  | taken (sector : Nat)
  | full
  | refused (cause : Breach)
deriving DecidableEq

/-- The calls and the looks of what keeps track of the sectors in use. -/
structure Keeper (σ : Type) where
  bit : σ → Nat → Bool
  isMarked : σ → Nat → Except Breach Bool
  marked : σ → List Nat
  freeCount : σ → Except Breach Nat
  mark : σ → Nat → Except Breach σ
  release : σ → Nat → Except Breach σ
  take : σ → Option (Nat × σ)

namespace Keeper

variable {σ τ : Type}

/-- Sector maps. -/
def maps : Keeper SectorMap where
  bit := SectorMap.bit
  isMarked := SectorMap.isMarked
  marked := SectorMap.marked
  freeCount := SectorMap.freeCount
  mark := SectorMap.mark
  release := SectorMap.release
  take := SectorMap.take

/-- Sector maps in words. -/
def words : Keeper WordMap where
  bit := WordMap.bit
  isMarked := WordMap.isMarked
  marked := WordMap.marked
  freeCount := WordMap.freeCount
  mark := WordMap.mark
  release := WordMap.release
  take := WordMap.take

/-- Sets of sectors below `size`. -/
def sets (size : Nat) : Keeper (Finset Nat) where
  bit S i := decide (i ∈ S)
  isMarked S i := if i < size then .ok (decide (i ∈ S)) else .error (.outsideMap i)
  marked S := S.sort (· ≤ ·)
  freeCount S := .ok (size - S.card)
  mark S i := if i < size then .ok (insert i S) else .error (.outsideMap i)
  release S i :=
    if i < size then if i ∈ S then .ok (S.erase i) else .error (.notInUse i)
    else .error (.outsideMap i)
  take S :=
    if h : (Finset.range size \ S).Nonempty then
      some ((Finset.range size \ S).min' h, insert ((Finset.range size \ S).min' h) S)
    else none

/-- The reply to a call, and what is left. -/
def respond (k : Keeper σ) (s : σ) : Call → Reply × σ
  | .mark i =>
    match k.mark s i with
    | .ok s' => (.done, s')
    | .error cause => (.refused cause, s)
  | .release i =>
    match k.release s i with
    | .ok s' => (.done, s')
    | .error cause => (.refused cause, s)
  | .take =>
    match k.take s with
    | some (i, s') => (.taken i, s')
    | none => (.full, s)

/-- The replies to calls, one after the other, and what is left. -/
def run (k : Keeper σ) : List Call → σ → List Reply × σ
  | [], s => ([], s)
  | c :: calls, s =>
    let (reply, s') := k.respond s c
    let (replies, s'') := k.run calls s'
    (reply :: replies, s'')

/-- Two keepers look alike. -/
structure Alike (k : Keeper σ) (l : Keeper τ) (s : σ) (t : τ) : Prop where
  bit_eq : ∀ i, k.bit s i = l.bit t i
  isMarked_eq : ∀ i, k.isMarked s i = l.isMarked t i
  marked_eq : k.marked s = l.marked t
  freeCount_eq : k.freeCount s = l.freeCount t

/-- The replies are the same, and what is left is related. -/
structure Matched {α : Type} (R : σ → τ → Prop) (x : α × σ) (y : α × τ) : Prop where
  reply_eq : x.1 = y.1
  left : R x.2 y.2

/-- What is related looks alike, replies alike and stays related. -/
structure Follower (k : Keeper σ) (l : Keeper τ) (R : σ → τ → Prop) : Prop where
  alike : ∀ s t, R s t → Alike k l s t
  step : ∀ s t, R s t → ∀ c, Matched R (k.respond s c) (l.respond t c)

theorem Alike.trans {υ : Type} {k : Keeper σ} {l : Keeper τ} {n : Keeper υ} {s : σ} {t : τ} {u : υ}
    (h : Alike k l s t) (h' : Alike l n t u) : Alike k n s u where
  bit_eq i := (h.bit_eq i).trans (h'.bit_eq i)
  isMarked_eq i := (h.isMarked_eq i).trans (h'.isMarked_eq i)
  marked_eq := h.marked_eq.trans h'.marked_eq
  freeCount_eq := h.freeCount_eq.trans h'.freeCount_eq

/-- Related keepers reply to all calls alike and stay related. -/
theorem Follower.run {k : Keeper σ} {l : Keeper τ} {R : σ → τ → Prop} (hk : Follower k l R)
    (calls : List Call) {s : σ} {t : τ} (h : R s t) :
    Matched R (k.run calls s) (l.run calls t) := by
  induction calls generalizing s t with
  | nil => exact ⟨rfl, h⟩
  | cons c calls ih =>
    have hstep := hk.step s t h c
    have hrest := ih hstep.left
    exact ⟨congrArg₂ _ hstep.reply_eq hrest.reply_eq, hrest.left⟩

/-! ## The least sector that is not in a set -/

section

variable {size : Nat} {S : Finset Nat}

theorem take_sets_eq_none_iff : (sets size).take S = none ↔ ∀ i < size, i ∈ S := by
  simp only [sets, dite_eq_right_iff, reduceCtorEq, imp_false, Finset.not_nonempty_iff_eq_empty,
    Finset.sdiff_eq_empty_iff_subset]
  exact forall_congr' fun i => by rw [Finset.mem_range]

theorem take_sets_eq_some_iff {T : Finset Nat} {i : Nat} : (sets size).take S = some (i, T) ↔
    i < size ∧ i ∉ S ∧ (∀ j < i, j ∈ S) ∧ T = insert i S := by
  simp only [sets]
  constructor
  · intro h
    split at h
    · rename_i hfree
      cases h
      have hmem := Finset.min'_mem _ hfree
      rw [Finset.mem_sdiff, Finset.mem_range] at hmem
      refine ⟨hmem.1, hmem.2, fun j hj => by_contra fun hnot => Nat.not_le.mpr hj ?_, rfl⟩
      exact Finset.min'_le _ _
        (Finset.mem_sdiff.mpr ⟨Finset.mem_range.mpr (hj.trans hmem.1), hnot⟩)
    · cases h
  · rintro ⟨hi, hnot, hbelow, rfl⟩
    have hmem : i ∈ Finset.range size \ S := Finset.mem_sdiff.mpr ⟨Finset.mem_range.mpr hi, hnot⟩
    have hleast : (Finset.range size \ S).min' ⟨i, hmem⟩ = i := by
      refine le_antisymm (Finset.min'_le _ _ hmem) (Finset.le_min' _ _ _ fun j hj => ?_)
      exact Nat.le_of_not_lt fun hlt => (Finset.mem_sdiff.mp hj).2 (hbelow j hlt)
    rw [dif_pos ⟨i, hmem⟩, hleast]

end

/-! ## Maps and sets -/

/-- The sectors of the set are those of the map that are in use, and no bit past its end is set. -/
structure Holds (size : Nat) (m : SectorMap) (S : Finset Nat) : Prop where
  size_eq : m.size = size
  lt_size : ∀ i ∈ S, i < size
  bit_eq : ∀ i, m.bit i = decide (i ∈ S)

theorem holds_empty (size : Nat) : Holds size (SectorMap.empty size) ∅ where
  size_eq := rfl
  lt_size i hi := absurd hi (Finset.notMem_empty i)
  bit_eq i := by simp

namespace Holds

variable {size : Nat} {m n : SectorMap} {S T : Finset Nat}

theorem eq_iff (h : Holds size m S) (h' : Holds size n T) : m = n ↔ S = T := by
  constructor
  · rintro rfl
    exact Finset.ext fun i => decide_eq_decide.mp ((h.bit_eq i).symm.trans (h'.bit_eq i))
  · rintro rfl
    refine SectorMap.ext_bit (h.size_eq.trans h'.size_eq.symm) fun i => ?_
    rw [h.bit_eq, h'.bit_eq]

theorem tidy (h : Holds size m S) : m.Tidy := by
  intro i hi
  rw [h.bit_eq, decide_eq_false]
  intro hmem
  have := h.lt_size i hmem
  have := h.size_eq
  omega

theorem insert_setBit (h : Holds size m S) {i : Nat} (hi : i < size) :
    Holds size (m.setBit i true) (insert i S) where
  size_eq := h.size_eq
  lt_size j hj := by
    rcases Finset.mem_insert.mp hj with rfl | hj
    · exact hi
    · exact h.lt_size j hj
  bit_eq j := by
    rw [SectorMap.bit_setBit m (h.size_eq.symm ▸ hi), h.bit_eq]
    by_cases hj : j = i <;> simp [hj]

theorem erase_setBit (h : Holds size m S) {i : Nat} (hi : i < size) :
    Holds size (m.setBit i false) (S.erase i) where
  size_eq := h.size_eq
  lt_size j hj := h.lt_size j (Finset.mem_of_mem_erase hj)
  bit_eq j := by
    rw [SectorMap.bit_setBit m (h.size_eq.symm ▸ hi), h.bit_eq]
    by_cases hj : j = i <;> simp [hj]

theorem marked_eq (h : Holds size m S) : m.marked = S.sort (· ≤ ·) := by
  have hset : S = m.marked.toFinset := by
    ext i
    have := h.lt_size i
    simpa [SectorMap.marked, h.size_eq, h.bit_eq] using this
  have hsorted : m.marked.Pairwise (· < ·) := List.Pairwise.filter _ List.pairwise_lt_range
  rw [hset]
  exact ((List.toFinset_sort (· ≤ ·) (hsorted.imp Nat.ne_of_lt)).mpr
    (hsorted.imp Nat.le_of_lt)).symm

theorem freeCount_eq (h : Holds size m S) : m.freeCount = .ok (size - S.card) := by
  have hcard : m.marked.length = S.card := by rw [h.marked_eq, Finset.length_sort]
  have hsum := List.length_eq_countP_add_countP (p := m.bit) (l := List.range m.size)
  simp only [List.length_range, Bool.not_eq_true, Bool.decide_eq_false] at hsum
  rw [SectorMap.marked, ← List.countP_eq_length_filter] at hcard
  rw [SectorMap.freeCount_eq h.tidy, SectorMap.free, ← List.countP_eq_length_filter, ← h.size_eq]
  congr 1
  omega

theorem alike (h : Holds size m S) : Alike maps (sets size) m S where
  bit_eq := h.bit_eq
  isMarked_eq i := by
    simp only [maps, sets, SectorMap.isMarked, h.size_eq, h.bit_eq]
  marked_eq := h.marked_eq
  freeCount_eq := h.freeCount_eq

theorem matched (h : Holds size m S) (c : Call) :
    Matched (Holds size) (maps.respond m c) ((sets size).respond S c) := by
  cases c with
  | mark i =>
    simp only [respond, maps, sets, SectorMap.mark, h.size_eq]
    by_cases hi : i < size
    · simp only [hi, if_true]
      exact ⟨rfl, h.insert_setBit hi⟩
    · simp only [hi, if_false]
      exact ⟨rfl, h⟩
  | release i =>
    simp only [respond, maps, sets, SectorMap.release, h.size_eq, h.bit_eq, decide_eq_true_eq]
    by_cases hi : i < size
    · by_cases hmem : i ∈ S
      · simp only [hi, hmem, if_true]
        exact ⟨rfl, h.erase_setBit hi⟩
      · simp only [hi, hmem, if_true, if_false]
        exact ⟨rfl, h⟩
    · simp only [hi, if_false]
      exact ⟨rfl, h⟩
  | take =>
    cases htake : m.take with
    | none =>
      have hset : (sets size).take S = none := take_sets_eq_none_iff.mpr fun i hi =>
        of_decide_eq_true ((h.bit_eq i).symm.trans
          ((SectorMap.take_eq_none_iff m).mp htake i (h.size_eq ▸ hi)))
      simp only [respond, maps, htake, hset]
      exact ⟨rfl, h⟩
    | some taken =>
      obtain ⟨i, n⟩ := taken
      obtain ⟨hi, hclear, hbelow, rfl⟩ := (SectorMap.take_eq_some_iff m n i).mp htake
      rw [h.size_eq] at hi
      rw [h.bit_eq] at hclear
      have hset : (sets size).take S = some (i, insert i S) := take_sets_eq_some_iff.mpr
        ⟨hi, of_decide_eq_false hclear, fun j hj =>
          of_decide_eq_true ((h.bit_eq j).symm.trans (hbelow j hj)), rfl⟩
      simp only [respond, maps, htake, hset]
      exact ⟨rfl, h.insert_setBit hi⟩

end Holds

theorem follower_maps (size : Nat) : Follower maps (sets size) (Holds size) where
  alike _ _ h := h.alike
  step _ _ h c := h.matched c

/-! ## Words and maps -/

theorem alike_of_packs {w : WordMap} {m : SectorMap} (h : w.Packs m) : Alike words maps w m where
  bit_eq i := (w.bit_eq_bitAt i).trans (h.bit_eq i)
  isMarked_eq := h.isMarked_eq
  marked_eq := h.marked_eq
  freeCount_eq := h.freeCount_eq

theorem matched_of_packs {w : WordMap} {m : SectorMap} (h : w.Packs m) (c : Call) :
    Matched WordMap.Packs (words.respond w c) (maps.respond m c) := by
  cases c with
  | mark i =>
    simp only [respond, words, maps, WordMap.mark, SectorMap.mark, h.size_eq]
    by_cases hi : i < m.size
    · simp only [hi, if_true]
      exact ⟨rfl, h.amend_or hi⟩
    · simp only [hi, if_false]
      exact ⟨rfl, h⟩
  | release i =>
    simp only [respond, words, maps, WordMap.release, h.isMarked_eq, SectorMap.release,
      SectorMap.isMarked]
    by_cases hi : i < m.size
    · cases hbit : m.bit i with
      | true =>
        simp only [hi, if_true]
        exact ⟨rfl, h.amend_and_not hi⟩
      | false =>
        simp only [hi, if_true]
        exact ⟨rfl, h⟩
    · simp only [hi, if_false]
      exact ⟨rfl, h⟩
  | take =>
    simp only [respond, words, maps, h.take_eq]
    cases htake : m.take with
    | none => exact ⟨rfl, h⟩
    | some taken =>
      obtain ⟨i, n⟩ := taken
      obtain ⟨hi, -, -, rfl⟩ := (SectorMap.take_eq_some_iff m n i).mp htake
      exact ⟨rfl, h.amend_or hi⟩

theorem follower_words : Follower words maps WordMap.Packs where
  alike _ _ h := alike_of_packs h
  step _ _ h c := matched_of_packs h c

/-! ## All calls -/

/-- The sectors in use after calls, none being in use before. -/
def inUse (size : Nat) (calls : List Call) : Finset Nat := ((sets size).run calls ∅).2

/-- A map is a set of sectors below its size. From a new map on, be it kept in bits or in words, every
call has the reply that the set gives, and after any calls the map looks like the set: a bit is set
if its sector is in the set and not otherwise, also past the last sector, the sectors in use are
listed in order, and those that are free are counted. Two maps are the same exactly if their sets
are. -/
theorem maps_are_sets {size : Nat} (hsize : size ≤ SectorMap.maxSize) :
    ∃ m₀ w₀, SectorMap.new size = .ok m₀ ∧ WordMap.new size = .ok w₀ ∧ ∀ calls : List Call,
      (∀ i ∈ inUse size calls, i < size) ∧
      (maps.run calls m₀).1 = ((sets size).run calls ∅).1 ∧
      (words.run calls w₀).1 = ((sets size).run calls ∅).1 ∧
      Alike maps (sets size) (maps.run calls m₀).2 (inUse size calls) ∧
      Alike words (sets size) (words.run calls w₀).2 (inUse size calls) ∧
      ∀ calls' : List Call,
        ((maps.run calls m₀).2 = (maps.run calls' m₀).2 ↔ inUse size calls = inUse size calls') ∧
        ((words.run calls w₀).2 = (words.run calls' w₀).2 ↔ inUse size calls = inUse size calls') := by
  have hnew : SectorMap.new size = .ok (SectorMap.empty size) := if_pos hsize
  have hnew' : WordMap.new size = .ok ⟨size, List.replicate (WordMap.wordCount size) 0⟩ :=
    if_pos (by simp only [SectorMap.maxSize] at hsize; omega)
  refine ⟨_, _, hnew, hnew', fun calls => ?_⟩
  have hset (calls : List Call) := (follower_maps size).run calls (holds_empty size)
  have hmap (calls : List Call) := follower_words.run calls (WordMap.packs_empty size)
  refine ⟨(hset calls).left.lt_size, (hset calls).reply_eq,
    (hmap calls).reply_eq.trans (hset calls).reply_eq, (hset calls).left.alike,
    (alike_of_packs (hmap calls).left).trans (hset calls).left.alike, fun calls' => ?_⟩
  have hiff := (hset calls).left.eq_iff (hset calls').left
  exact ⟨hiff, ((hmap calls).left.eq_iff (hmap calls').left).trans hiff⟩

/-- Sectors are taken across the boundary of two words, up to the last sector and no further. -/
theorem maps_are_sets_seventy : 70 ≤ SectorMap.maxSize ∧ ∃ m₀ w₀,
    SectorMap.new 70 = .ok m₀ ∧ WordMap.new 70 = .ok w₀ ∧
    (maps.run (List.replicate 63 .take ++ [.mark 64, .take, .take, .release 64, .release 64, .take,
      .mark 66, .take, .take, .take, .take, .take, .mark 70]) m₀).1
      = (List.range 63).map .taken ++ [.done, .taken 63, .taken 65, .done, .refused (.notInUse 64),
        .taken 64, .done, .taken 67, .taken 68, .taken 69, .full, .full,
        .refused (.outsideMap 70)] := by
  have hsize : 70 ≤ SectorMap.maxSize := by decide
  obtain ⟨m₀, w₀, hm, hw, hall⟩ := maps_are_sets hsize
  refine ⟨hsize, m₀, w₀, hm, hw, ?_⟩
  obtain ⟨-, hmaps, hwords, -⟩ := hall _
  obtain rfl : _ = w₀ := Except.ok.inj hw
  rw [hmaps, ← hwords]
  decide +kernel

end Keeper

end IndexedDisk
