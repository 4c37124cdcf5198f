import IndexedDisk.Directory.Stored
import IndexedDisk.Path

/-!
# From names to directories

`resolve` follows names down from a directory. A name that is missing, or names a file, is
reported with the path that leads to it; every directory on the way is read anew. `subtree` lists
all that lies below a directory, each entry before what is below it.
-/

namespace IndexedDisk.Directory

/-- Reads the directory whose header lies at `p`, and opens its file. -/
def openAt (p : Int32) : DiskM (OpenFile × Directory) := do
  let file ← OpenFile.openAt p
  let d ← fetch file directorySlots
  return (file, d)

/-- Follows names down from a directory that the names in `walked` lead to. -/
def descend (file : OpenFile) (d : Directory) (walked : List String) :
    List String → DiskM (OpenFile × Directory)
  | [] => pure (file, d)
  | name :: rest =>
    match d.find? name with
    | none => refuse (.notFound (Path.ofNames (walked ++ [name])))
    | some e =>
      if e.isDirectory then do
        let (file, d) ← openAt e.sector
        descend file d (walked ++ [name]) rest
      else refuse (.notADirectory (Path.ofNames (walked ++ [name])))

/-- Follows names down from the directory in a file. -/
def resolve (root : OpenFile) (components : List String) : DiskM (OpenFile × Directory) := do
  let d ← fetch root directorySlots
  descend root d [] components

/--
The given entries of a directory at a depth, each followed by all that lies below it. Below `fuel`
levels of directories the listing is taken to have no end.
-/
def subtree (fuel depth : Nat) : List Entry → DiskM (List (Nat × Entry))
  | [] => pure []
  | e :: rest => do
    let below ←
      if e.isDirectory then
        match fuel with
        | 0 => breach .endless
        | fuel + 1 => do
          let (_, d) ← openAt e.sector
          subtree fuel (depth + 1) d.list
      else pure []
    let after ← subtree fuel depth rest
    return (depth, e) :: below ++ after
termination_by entries => (fuel, entries.length)

end IndexedDisk.Directory
