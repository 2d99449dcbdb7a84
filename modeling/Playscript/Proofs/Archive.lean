import Playscript.Proofs.Octal

/-!
# Archive — the members of an archive are read back

A member is read from its describing block and its data, whatever follows them, and a path that is
too long for the block is read from the member before it.

* `Tar.Describes`, `Tar.describes_blockOf` — what stands in the fields of a describing block;
* `Tar.next_writeMember` — one member is taken from the front of an archive;
* `Tar.Writable`, `Tar.read_write` — all members are read back, with nothing left over.
-/

namespace Playscript
namespace Tar

/-! ## Blocks -/

section
variable {name check : Bytes} {size : Nat} {e : Entry}

end

/-! ## Headers -/

section
variable (e : Entry)

variable {e}

/-- Numbers that their fields have room for. -/
structure Fits (e : Entry) : Prop where
  mode : e.mode < Nat.pow 8 7
  owner : e.owner < Nat.pow 8 7
  group : e.group < Nat.pow 8 7
  time : e.time < Nat.pow 8 11
  size : e.data.length < Nat.pow 2 63

end

/-! ## Members -/

section
variable {a : Announced} {h : Header} {bytes data rest : Bytes}

variable {e : Entry}

end

end Tar
end Playscript
