import Playscript.Cast

/-!
# Manifest — the description of a project

* `DefaultStyle` — how text looks and flows unless the script says otherwise, with the keys that
  other presenters use kept beside it;
* `CastSource` — where the roles come from: a file of the project, or the manifest itself;
* `Manifest` — title, author, first script, roles, cover and default style;
* `Manifest.parse`, `Manifest.toJson` — a manifest as a document.
-/

namespace Playscript

open Json (Tree)

/-- How text looks and flows at the start, as far as a manifest says. -/
structure DefaultStyle where
  foreground : Option String
  background : Option String
  style : Option String
  delay : Option Binary64
  blankLines : Option Nat
  -- Every other key with its value.
  presentation : List (String × Json)
deriving Repr, Inhabited

namespace DefaultStyle

def empty : DefaultStyle := ⟨none, none, none, none, none, []⟩

def knownKeys : List String :=
  ["foreground", "fg", "background", "bg", "style", "delay", "blank-lines"]

/-- A default style is written as an object; `depth` is the nesting allowed to it. -/
def ofTree? (depth : Nat) : Tree → Option DefaultStyle
  | .object members => do
    let members ← Tree.members? members
    let others := members.filter fun m => !knownKeys.contains m.1
    let others ← others.mapM fun (key, value) =>
      (value.resolve? (depth - 1)).map fun value => (key, value)
    return {
      foreground := ← Tree.optional Tree.readText? (← Tree.field? ["foreground", "fg"] members)
      background := ← Tree.optional Tree.readText? (← Tree.field? ["background", "bg"] members)
      style := ← Tree.optional Tree.readText? (← Tree.field? ["style"] members)
      delay := ← Tree.optional Tree.readDouble? (← Tree.field? ["delay"] members)
      blankLines := ← Tree.optional Tree.readCount? (← Tree.field? ["blank-lines"] members)
      presentation := others.foldl (fun entries m => Keyed.put m.1 m.2 entries) [] }
  | _ => none

def toJson (d : DefaultStyle) : Json :=
  .object ((d.foreground.map fun s => ("foreground", Json.text s)).toList ++
    (d.background.map fun s => ("background", Json.text s)).toList ++
    (d.style.map fun s => ("style", Json.text s)).toList ++
    (d.delay.map fun x => ("delay", Json.number (.double x))).toList ++
    (d.blankLines.map fun n => ("blank-lines", Json.number (.whole n))).toList ++
    d.presentation)

end DefaultStyle

/-- Where the roles of a project come from. -/
inductive CastSource where
  | path (path : String)
  | inline (cast : Cast)
deriving Repr

namespace CastSource

/-- A path, or the roles themselves; `depth` is the nesting allowed to them. -/
def ofTree? (depth : Nat) (tree : Tree) : Option CastSource := do
  let _ ← tree.resolve? depth
  match tree with
  | .text pieces => (Json.textOf? pieces).map path
  | _ => (Cast.ofTree? tree).map inline

def toJson : CastSource → Json
  | path p => .text p
  | inline c => c.toJson

end CastSource

/-- The description of a project. -/
structure Manifest where
  title : Option String
  author : Option String
  -- The script that is played.
  index : String
  roles : Option CastSource
  cover : Option String
  defaultStyle : DefaultStyle
deriving Repr

namespace Manifest

def fileName : String := "qd.json"

def displayTitle (m : Manifest) : String := m.title.getD "untitled"

/-! ## Manifests as documents -/

def ofFields? (title author index roles cover style : Option Tree) : Option Manifest := do
  let depth := Json.maxDepth - 1
  return {
    title := ← Tree.optional Tree.readText? title
    author := ← Tree.optional Tree.readText? author
    index := ← index.bind Tree.readText?
    roles := ← Tree.optional (CastSource.ofTree? depth) roles
    cover := ← Tree.optional Tree.readText? cover
    defaultStyle := ← match style with
      | none => some DefaultStyle.empty
      | some tree => DefaultStyle.ofTree? depth tree }

/-- A manifest is written as an object, or as an array of its fields. -/
def ofTree? : Tree → Option Manifest
  | .object members => do
    let members ← Tree.members? members
    ofFields? (← Tree.field? ["title"] members) (← Tree.field? ["author"] members)
      (← Tree.field? ["index"] members) (← Tree.field? ["roles"] members)
      (← Tree.field? ["cover"] members) (← Tree.field? ["default-style"] members)
  | .array items =>
    if items.length ≤ 6 then
      ofFields? items[0]? items[1]? items[2]? items[3]? items[4]? items[5]?
    else none
  | _ => none

def parse (text : String) : Except Fault Manifest :=
  match (Tree.read? text).bind ofTree? with
  | some m => .ok m
  | none => .error (Fault.of (.manifestSyntax "not a manifest"))

def toJson (m : Manifest) : Json :=
  .object ((m.title.map fun s => ("title", Json.text s)).toList ++
    (m.author.map fun s => ("author", Json.text s)).toList ++
    [("index", Json.text m.index)] ++
    (m.roles.map fun r => ("roles", r.toJson)).toList ++
    (m.cover.map fun s => ("cover", Json.text s)).toList ++
    [("default-style", m.defaultStyle.toJson)])

end Manifest

end Playscript
