import ConfigConstants.File.Path

/-!
A file system held in memory: folders and files by their place in one tree, and the folder in which
relative paths begin. A path is followed one component at a time, and every component, be it empty,
"." or "..", has to be looked up in a folder; so `file/` and `missing/../file` lead nowhere.
-/

set_option autoImplicit false

namespace ConfigConstants

/-- A place in the tree by the names that lead to it, the innermost first. -/
abbrev Place := List (List UInt8)

inductive FileNode where
  | folder
  | file (contents : Except Text (List UInt8))

namespace FileNode

def isFolder : FileNode → Bool
  | .folder => true
  | .file _ => false

def entry : FileNode → FileEntry
  | .folder => .other
  | .file contents => .regular contents

end FileNode

/-- The nodes with their places, a newer node before an older one, and the working folder. -/
structure FileTree where
  nodes : List (Place × FileNode)
  working : Place

namespace FileTree

/-- The longest path that can be followed, in bytes. -/
def longestPath : Nat := 4095

def node? (tree : FileTree) : Place → Option FileNode
  | [] => some .folder
  | place => (tree.nodes.find? fun node => node.1 == place).map Prod.snd

def isFolder (tree : FileTree) (place : Place) : Bool :=
  (tree.node? place).any FileNode.isFolder

/-- Follows components from a place, as far as they exist. Above the root is the root. -/
def follow? (tree : FileTree) : Place → List (List UInt8) → Option Place
  | place, [] => some place
  | place, component :: later =>
      if !tree.isFolder place then none
      else if component = [] ∨ component = Path.here then follow? tree place later
      else if component = Path.above then follow? tree place.tail later
      else if (tree.node? (component :: place)).isSome then
        follow? tree (component :: place) later
      else none

def origin (tree : FileTree) (path : Path) : Place :=
  if path.bytes.head? = some Path.slash then [] else tree.working

/-- A path that is empty, too long, or holds a zero byte names nothing. -/
def isName (path : Path) : Bool :=
  !path.bytes.isEmpty && decide (path.bytes.length ≤ longestPath) && decide (0 ∉ path.bytes)

def find? (tree : FileTree) (path : Path) : Option FileEntry :=
  if isName path then
    (tree.follow? (tree.origin path) (Path.components path)).bind fun place =>
      (tree.node? place).map FileNode.entry
  else none

def toSystem (tree : FileTree) : FileSystem :=
  ⟨tree.find?⟩

def place (tree : FileTree) (path : Path) : Place :=
  (Path.components path).foldl (fun place component =>
    if component = [] ∨ component = Path.here then place
    else if component = Path.above then place.tail
    else component :: place) (tree.origin path)

/-- The tree with a folder at a place, and folders on the way to it. What stands there is kept. -/
def makeFolders (tree : FileTree) : Place → FileTree
  | [] => tree
  | name :: outer =>
      let withOuter := makeFolders tree outer
      if (withOuter.node? (name :: outer)).isSome then withOuter
      else { withOuter with nodes := (name :: outer, .folder) :: withOuter.nodes }

def addFolder (tree : FileTree) (path : Text) : FileTree :=
  tree.makeFolders (tree.place path)

def addFile (tree : FileTree) (path : Text) (contents : Except Text (List UInt8)) : FileTree :=
  let place := tree.place path
  let withFolders := tree.makeFolders place.tail
  { withFolders with nodes := (place, .file contents) :: withFolders.nodes }

/-- A tree of nothing but the folders that lead to the working folder. -/
def empty (working : List Text) : FileTree :=
  let place := working.map Text.Utf8.encode
  makeFolders ⟨[], place⟩ place

end FileTree

end ConfigConstants
