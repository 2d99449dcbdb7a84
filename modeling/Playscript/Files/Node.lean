import Playscript.Files.Path

/-!
# Node — trees of files, links and directories

A directory holds its entries in the order in which they are listed, which means nothing.

* `Node` — a file, a link or a directory;
* `Node.at?`, `Node.put` — what stands at a place in a tree, and the tree with something else there;
* `Node.descendants` — everything below a directory, parents first and neighbours by name.
-/

namespace Playscript

/-- The names on the way from the root of a tree to a place in it. -/
abbrev Place := List Bytes

/-- A file, a link or a directory. -/
inductive Node where
  | file (data : Bytes)
  | link (target : Path)
  | dir (entries : List (Bytes × Node))

namespace Node

instance : Inhabited Node := ⟨dir []⟩

def isDir : Node → Bool
  | dir _ => true
  | _ => false

def isFile : Node → Bool
  | file _ => true
  | _ => false

def entries : Node → List (Bytes × Node)
  | dir entries => entries
  | _ => []

def child? (n : Node) (name : Bytes) : Option Node := n.entries.lookup name

def at? (n : Node) : Place → Option Node
  | [] => some n
  | name :: rest =>
    match n.child? name with
    | some child => child.at? rest
    | none => none

def setEntry (name : Bytes) (node : Node) : List (Bytes × Node) → List (Bytes × Node)
  -- A new name comes last.
  | [] => [(name, node)]
  | entry :: rest =>
    if entry.1 = name then (name, node) :: rest else entry :: setEntry name node rest

/-- The tree with another node at a place whose parent is a directory. -/
def put : Node → Place → Node → Node
  | _, [], new => new
  | dir entries, name :: rest, new =>
    dir (setEntry name (((entries.lookup name).getD (dir [])).put rest new) entries)
  | n, _ :: _, _ => n
termination_by structural _ place => place

/-! ## Everything below a directory -/

mutual

/-- The places below a node and what stands there: what a directory holds comes right after it, and
entries of one directory are in the order of their names. -/
def descendants : Node → List (Place × Node)
  | dir entries =>
    ((branches entries).mergeSort fun a b => decide (a.1 ≤ b.1)).flatMap fun branch =>
      branch.2.map fun (place, node) => (branch.1 :: place, node)
  | _ => []

def branches : List (Bytes × Node) → List (Bytes × List (Place × Node))
  | [] => []
  | (name, node) :: rest => (name, ([], node) :: node.descendants) :: branches rest

end

end Node
end Playscript
