import Playscript.Binary64.Shortest

/-!
# Text — how doubles are written and read

Two written forms share the shortest digits of `Binary64.shortest`:

* `Binary64.plain` — for messages: positional at every size, a whole number without a point;
* `Binary64.jsonText` — for documents: positional while the leading digit stands between `10 ^ -5`
  and `10 ^ 15`, scientific outside, a whole number with `.0`.

`Binary64.read?` reads an optional sign, digits with an optional point and an optional power of ten,
and the words for infinity and for no number, rounding the exact value once.
-/

namespace Playscript

namespace Decimal

def digitChars (d : Decimal) : List Char := Nat.toDigits 10 d.digits

def lead (d : Decimal) : Int := d.power + d.digitChars.length - 1

def positional (d : Decimal) : List Char × List Char :=
  let ds := d.digitChars
  if 0 ≤ d.power then (ds ++ List.replicate d.power.toNat '0', [])
  else
    let places := (-d.power).toNat
    let ds := List.replicate (places + 1 - ds.length) '0' ++ ds
    (ds.take (ds.length - places), ds.drop (ds.length - places))

end Decimal

namespace Binary64

def signText (x : Binary64) : String := if x.signBit then "-" else ""

/-- The text used in messages. -/
def plain (x : Binary64) : String :=
  if x.isNaN then "NaN"
  else if x.isInfinite then x.signText ++ "inf"
  else
    let (whole, places) := (shortest .up x).positional
    x.signText ++ String.ofList (if places.isEmpty then whole else whole ++ '.' :: places)

/-- The text used in documents, for finite numbers. -/
def jsonText (x : Binary64) : String :=
  let d := shortest .even x
  let lead := d.lead
  x.signText ++ String.ofList (
    if -5 ≤ lead ∧ lead ≤ 15 then
      let (whole, places) := d.positional
      whole ++ '.' :: (if places.isEmpty then ['0'] else places)
    else
      let mantissa := match d.digitChars with
        | first :: [] => [first]
        | first :: rest => first :: '.' :: rest
        | [] => []
      mantissa ++ 'e' :: (if lead < 0 then '-' else '+') :: Nat.toDigits 10 lead.natAbs)

/-! ## Reading -/

def digitsValue (cs : List Char) : Nat := cs.foldl (fun n c => 10 * n + (c.toNat - '0'.toNat)) 0

def readPower? (cs : List Char) : Option Int :=
  let (negative, ds) := match cs with
    | '-' :: r => (true, r)
    | '+' :: r => (false, r)
    | r => (false, r)
  if ds.isEmpty || !ds.all Char.isDigit then none
  else if negative then some (-(digitsValue ds : Int)) else some (digitsValue ds)

def readMagnitude? (negative : Bool) (cs : List Char) : Option Binary64 :=
  let whole := cs.takeWhile Char.isDigit
  let rest := cs.dropWhile Char.isDigit
  -- Digits may be missing on either side of the point, but not on both.
  let (places, rest) := match rest with
    | '.' :: r => (r.takeWhile Char.isDigit, r.dropWhile Char.isDigit)
    | r => ([], r)
  if whole.isEmpty && places.isEmpty then none
  else
    let power? := match rest with
      | [] => some 0
      | c :: r => if c == 'e' || c == 'E' then readPower? r else none
    power?.map fun power =>
      ofDecimal negative (digitsValue (whole ++ places)) (power - places.length)

def readWord? (negative : Bool) (cs : List Char) : Option Binary64 :=
  let word := String.ofList (cs.map Char.toLower)
  if word == "inf" || word == "infinity" then some (infinity negative)
  else if word == "nan" then some notANumber
  else none

def readUnsigned? (negative : Bool) (cs : List Char) : Option Binary64 :=
  (readWord? negative cs).or (readMagnitude? negative cs)

/-- The double nearest to the number that a text writes, if it writes one. -/
def read? (text : String) : Option Binary64 :=
  match text.toList with
  | '-' :: cs => readUnsigned? true cs
  | '+' :: cs => readUnsigned? false cs
  | cs => readUnsigned? false cs

end Binary64

end Playscript
