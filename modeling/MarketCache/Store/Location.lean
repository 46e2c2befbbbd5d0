import MarketCache.Store.Basic

/-!
# Where a store lives

A store of records is a directory, opened at a path and by one user at a time. The directories
on the way to it are made as needed. A regular file in one of their places stops that, and so
does a regular file at the path itself.

Main definition: `Volume.openStore`.
-/

namespace MarketCache

/-- A file tree. -/
inductive Volume where
  | file
  /-- A directory, and whether a store is open in it. -/
  | directory (isOpen : Bool) (children : List (String × Volume))
deriving Repr, Inhabited

namespace Volume

/-- Why a directory could not be made. -/
inductive DirectoryFault where
  /-- A file has its name. -/
  | fileExists
  /-- A file has the name of a directory above it. -/
  | notDirectory
deriving DecidableEq, Repr

/-- The text of a fault, with the number that the operating system gives it. -/
def DirectoryFault.message : DirectoryFault → String
  | .fileExists => "File exists (os error 17)"
  | .notDirectory => "Not a directory (os error 20)"

/-- The failure of a store whose directory cannot be made. -/
def DirectoryFault.toStoreError (f : DirectoryFault) : StoreError :=
  .unavailable ("Failed to create directory: " ++ f.message)

/-- Sets what a directory holds under a name. -/
def setChild (name : String) (v : Volume) (children : List (String × Volume)) :
    List (String × Volume) :=
  (name, v) :: children.filter (·.1 != name)

/-- Opens the store that is, or is to be, in a directory's place. -/
def openHere : Option Volume → Except StoreError Volume
  | none => .ok (.directory true [])
  | some .file => .error (.database .occupied)
  | some (.directory true _) => .error (.database .locked)
  | some (.directory false children) => .ok (.directory true children)

/-- Opens the store `name` in the directory at the end of the path `dirs`, and makes the
    directories that are missing. -/
def openStore (name : String) (dirs : List String) (isOpen : Bool)
    (children : List (String × Volume)) : Except StoreError Volume :=
  match dirs with
  | [] => do
    let store ← openHere (children.lookup name)
    .ok (.directory isOpen (setChild name store children))
  | dir :: dirs =>
    match children.lookup dir with
    | some .file =>
      .error (if dirs.isEmpty then DirectoryFault.fileExists else .notDirectory).toStoreError
    | some (.directory inner below) => do
      let v ← openStore name dirs inner below
      .ok (.directory isOpen (setChild dir v children))
    | none => do
      let v ← openStore name dirs false []
      .ok (.directory isOpen (setChild dir v children))

end Volume

end MarketCache
