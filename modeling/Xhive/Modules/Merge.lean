import Xhive.Support.Outcome
import Xhive.Support.Trees

/-!
# Merging one directory into another

`check_conflicts`, `copy_merge` and `move_merge` of the build module.  Paths are
relative to the two roots.  The `os` primitives work on trees of which a link is
an entry like any other; `mkdir` and `cd` raise where no directory can be, and
`ln` replaces what is at its path.
-/

namespace Xhive.Modules

open Xhive.Support

/-- The tree below one root; the root itself has the empty path. -/
abbrev Tree (Content : Type) := FileTree String Content String

abbrev Path := List String

variable {Content : Type}

/-! ## The primitives -/

inductive OsError where
  | mkdir
  | cd

def osExists (t : Tree Content) (p : Path) : Bool :=
  (t.entry p).isSome

def osMkdir (t : Tree Content) (p : Path) : Except OsError (Tree Content) :=
  if h : t.Passable p then .ok (t.makeDirectories p h) else .error .mkdir

def osTryrm (t : Tree Content) (p : Path) : Tree Content :=
  t.remove p

/-- `os.trycp(src_file, dst_dir)`: into a directory, or over what else is there. -/
def osTrycp (src dst : Tree Content) (p : Path) : Tree Content × Bool :=
  match src.entry p, if dst.entry p.tail = some .directory then p else p.tail with
  | some (.file content), name :: dir =>
      if h : dst.entry dir = some .directory then (dst.place name dir (.file content) h, true)
      else (dst, false)
  | _, _ => (dst, false)

/-- `os.trymv(src_file, dst_dir)`: source, destination and success. -/
def osTrymv (src dst : Tree Content) (p : Path) : Tree Content × Tree Content × Bool :=
  let moved := osTrycp src dst p
  (if moved.2 then src.remove p else src, moved.1, moved.2)

/-- `os.cd(dst_dir)`, `os.ln(target, lnk_name)` and `os.cd("-")`. -/
def osLn (dst : Tree Content) (p : Path) (target : String) : Except OsError (Tree Content) :=
  match p with
  | [] => .error .cd
  | name :: dir =>
      if h : dst.entry dir = some .directory then .ok (dst.place name dir (.link target) h)
      else .error .cd

/-- The answer of `os.filedirs(path.join(root, "**"))`, in whatever order. -/
structure Listing (t : Tree Content) where
  paths : List Path
  nodup : paths.Nodup
  mem_iff : ∀ p, p ∈ paths ↔ p ≠ [] ∧ t.entry p ≠ none

/-! ## The traversal -/

/-- The two trees and the locals of a merge. -/
structure Merge (Content : Type) where
  src : Tree Content
  dst : Tree Content
  success : Bool
  linkList : List (Path × String)

def checkConflicts (paths : List Path) (dst : Tree Content) : Bool :=
  0 < (paths.filter (osExists dst)).length

/-- The branch of a directory, the same in both functions. -/
def mergeDirectory (s : Merge Content) (p : Path) : Except OsError (Merge Content) :=
  if osExists s.dst p then .ok s
  else do
    let dst ← osMkdir s.dst p
    .ok { s with dst := dst, success := s.success && osExists dst p }

def mergeDstDir (dst : Tree Content) (dstDir : Path) : Except OsError (Tree Content) :=
  if osExists dst dstDir then .ok dst else osMkdir dst dstDir

/-- What both functions do at the destination before they transfer a file. -/
def mergePrepare (dst : Tree Content) (p : Path) : Except OsError (Tree Content) := do
  let dst ← mergeDstDir dst p.tail
  .ok (if osExists dst p then osTryrm dst p else dst)

/-- One `src_file` of `copy_merge`.  Nothing reads the links it collects. -/
def copyEntry (s : Merge Content) (p : Path) : Except OsError (Merge Content) :=
  match s.src.entry p with
  | some (.link target) => .ok { s with linkList := s.linkList ++ [(p, target)] }
  | some .directory => mergeDirectory s p
  | _ => do
      let dst ← mergePrepare s.dst p
      let copied := osTrycp s.src dst p
      .ok { s with dst := copied.1, success := s.success && copied.2 }

/-- One `src_file` of `move_merge`. -/
def moveEntry (s : Merge Content) (p : Path) : Except OsError (Merge Content) :=
  match s.src.entry p with
  | some (.link target) => .ok { s with linkList := s.linkList ++ [(p, target)] }
  | some .directory => mergeDirectory s p
  | some (.file _) => do
      let dst ← mergePrepare s.dst p
      let moved := osTrymv s.src dst p
      .ok { s with src := moved.1, dst := moved.2.1, success := s.success && moved.2.2 }
  | none => .ok s

/-- The links of `move_merge`, made once every other entry is in place. -/
def moveLinks (s : Merge Content) : Except OsError (Merge Content) := do
  let dst ← s.linkList.foldlM (fun dst link => osLn dst link.1 link.2) s.dst
  .ok { s with dst := dst }

/-! ## The emptied source directories -/

/-- `#path`, from the root of the source. -/
def pathLength (p : Path) : ℕ :=
  p.foldr (fun name length => name.length + 1 + length) 0

/-- Remove a source directory in which nothing is left. -/
def removeEmpty (paths : List Path) (src : Tree Content) (dir : Path) : Tree Content :=
  if paths.all fun p => !(p.tail == dir && osExists src p) then osTryrm src dir else src

/-- Subdirectories first. -/
def moveCleanup (paths : List Path) (s : Merge Content) : Merge Content :=
  let srcDirs := (paths.filter fun p => s.src.entry p = some .directory).mergeSort
    fun a b => decide (pathLength b ≤ pathLength a)
  { s with src := removeEmpty paths (srcDirs.foldl (removeEmpty paths) s.src) [] }

/-! ## The two functions -/

/-- `copy_merge(dst, src, force)`: its answer, and the trees it leaves. -/
def copyMerge (dst src : Tree Content) (files : Listing src) (force : Bool) :
    Except OsError (Bool × Merge Content) :=
  if src.entry [] = some .directory then do
    let dst ← osMkdir dst []
    let s : Merge Content := { src := src, dst := dst, success := true, linkList := [] }
    if force = false ∧ checkConflicts files.paths dst = true then .ok (false, s)
    else do
      let s ← files.paths.foldlM copyEntry s
      .ok (s.success, s)
  else .ok (false, { src := src, dst := dst, success := true, linkList := [] })

/-- `move_merge(dst, src, force)`: its answer, and the trees it leaves. -/
def moveMerge (dst src : Tree Content) (files : Listing src) (force : Bool) :
    Except OsError (Bool × Merge Content) :=
  if src.entry [] = some .directory then do
    let dst ← osMkdir dst []
    let s : Merge Content := { src := src, dst := dst, success := true, linkList := [] }
    if force = false ∧ checkConflicts files.paths dst = true then .ok (false, s)
    else do
      let s ← files.paths.foldlM moveEntry s
      if s.success then do
        let s ← moveLinks s
        .ok (true, moveCleanup files.paths s)
      else .ok (false, s)
  else .ok (false, { src := src, dst := dst, success := true, linkList := [] })

end Xhive.Modules
