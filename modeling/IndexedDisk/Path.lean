import IndexedDisk.Failure

/-!
# Paths

A path is text in which slashes separate names. Any number of slashes separates as one does, and
slashes at either end mean nothing. The names `.` and `..` are refused, for a path is not read
relative to anything.

The pieces of a text are determined by two laws: none holds a slash (`slash_not_mem_of_mem_pieces`),
and with slashes between them they make up the text (`intercalate_pieces`).
-/

namespace IndexedDisk.Path

/-- The pieces of a text between its slashes, empty ones included. -/
def pieces : List Char → List (List Char)
  | [] => [[]]
  | c :: cs =>
    if c = '/' then [] :: pieces cs
    else match pieces cs with
      | [] => [[c]]
      | piece :: rest => (c :: piece) :: rest

/-- The names in a path, in order. -/
def names (path : String) : List String :=
  ((pieces path.toList).filter (! ·.isEmpty)).map String.ofList

/-- A name that stands for a place relative to another. -/
def isRelative (name : String) : Bool := name == "." || name == ".."

/-- The names in a path, if none of them is relative. -/
def split (path : String) : Except Refusal (List String) :=
  match (names path).find? isRelative with
  | some name => .error (.invalidPath (.relative name path))
  | none => .ok (names path)

/-- The directories that a path goes through, and the name it ends with. -/
def splitLast (path : String) : Except Refusal (List String × String) :=
  match split path with
  | .error cause => .error cause
  | .ok components =>
    match components.getLast? with
    | some name => .ok (components.dropLast, name)
    | none => .error (.invalidPath (.noName path))

/-- The path from the root through the given names. -/
def ofNames (components : List String) : String :=
  "/" ++ "/".intercalate components

/-! ## Pieces -/

theorem pieces_ne_nil (cs : List Char) : pieces cs ≠ [] := by
  fun_cases pieces cs <;> simp

theorem slash_not_mem_of_mem_pieces {cs piece : List Char} (h : piece ∈ pieces cs) :
    '/' ∉ piece := by
  fun_induction pieces cs generalizing piece with
  | case1 => simp_all
  | case2 cs ih =>
    rcases List.mem_cons.mp h with rfl | h
    · simp
    · exact ih h
  | case3 c cs hc heq ih => exact absurd heq (pieces_ne_nil cs)
  | case4 c cs hc first rest heq ih =>
    rw [heq] at ih
    rcases List.mem_cons.mp h with rfl | h
    · simp [Ne.symm hc, ih (List.mem_cons_self ..)]
    · exact ih (List.mem_cons_of_mem _ h)

theorem intercalate_pieces (cs : List Char) : ['/'].intercalate (pieces cs) = cs := by
  fun_induction pieces cs with
  | case1 => rfl
  | case2 cs ih =>
    obtain ⟨first, rest, h⟩ := List.exists_cons_of_ne_nil (pieces_ne_nil cs)
    rw [h] at ih ⊢
    rw [List.intercalate_cons_cons, ih]
    rfl
  | case3 c cs hc heq ih => exact absurd heq (pieces_ne_nil cs)
  | case4 c cs hc first rest heq ih =>
    rw [heq] at ih
    cases rest with
    | nil => simpa using ih
    | cons second rest =>
      rw [List.intercalate_cons_cons] at ih ⊢
      rw [← ih]
      simp

end IndexedDisk.Path
