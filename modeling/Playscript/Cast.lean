import Playscript.Json.Record
import Playscript.Palette

/-!
# Cast — the roles of a play

* `Role` — a display name and a colour, each of which may be missing;
* `Cast` — the roles by id;
* `Cast.parse`, `Cast.toJson` — a cast as a document.
-/

namespace Playscript

/-- What is known of a speaker. -/
structure Role where
  displayName : Option String
  color : Option Color
deriving DecidableEq, Repr

namespace Role

open Json (Tree)

def readColor? (tree : Tree) : Option Color := do
  let spec ← tree.readText?
  (Color.parse spec).toOption

def ofFields? (name color : Option Tree) : Option Role := do
  return { displayName := ← Tree.optional Tree.readText? name,
           color := ← Tree.optional readColor? color }

/-- A role is written as an object with the fields `name` and `color`, or as an array of them. -/
def ofTree? : Tree → Option Role
  | .object members => do
    let members ← Tree.members? members
    ofFields? (← Tree.field? ["name"] members) (← Tree.field? ["color"] members)
  | .array [] => ofFields? none none
  | .array [name] => ofFields? (some name) none
  | .array [name, color] => ofFields? (some name) (some color)
  | _ => none

def toJson (r : Role) : Json :=
  .object ((r.displayName.map fun name => ("name", Json.text name)).toList ++
    (r.color.map fun color => ("color", Json.text color.name)).toList)

end Role

/-- The roles of a play by id. -/
structure Cast where
  roles : Keyed Role
deriving DecidableEq, Repr, Inhabited

namespace Cast

open Json (Tree)

def empty : Cast := ⟨Keyed.empty⟩

def insert (c : Cast) (id : String) (role : Role) : Cast := ⟨c.roles.insert id role⟩

def find? (c : Cast) (id : String) : Option Role := c.roles.find? id

def contains (c : Cast) (id : String) : Bool := c.roles.contains id

def displayName (c : Cast) (id : String) : String :=
  ((c.find? id).bind Role.displayName).getD id

def size (c : Cast) : Nat := c.roles.size

def isEmpty (c : Cast) : Bool := c.roles.isEmpty

/-! ## Casts as documents -/

/-- A cast is written as an object of roles. -/
def ofTree? : Tree → Option Cast
  | .object members => do
    let members ← Tree.members? members
    let roles ← members.mapM fun (id, role) => (Role.ofTree? role).map fun role => (id, role)
    return ⟨Keyed.ofList roles⟩
  | _ => none

def toJson (c : Cast) : Json := .object (c.roles.map Role.toJson).entries

def parse (text : String) : Except Fault Cast :=
  match (Tree.read? text).bind ofTree? with
  | some c => .ok c
  | none => .error (Fault.of (.registrySyntax "not an object of roles"))

end Cast

end Playscript
