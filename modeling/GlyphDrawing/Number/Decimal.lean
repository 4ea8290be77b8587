/-!
# Shortest decimal text

A double is written with the fewest digits that read back as that double, and of those the
nearest ones. The digits are found on the coarsest grid of multiples of a power of ten that meets
the interval of reals rounding to the double: a point of that grid has no trailing zero, and a
shorter text would lie on a coarser grid. A message has no exponent, however long the number is. A
dump of values has one for very large and very small numbers.
-/

namespace GlyphDrawing

/-- The number `coefficient * 10 ^ exponent`. -/
structure Decimal where
  coefficient : Nat
  exponent : Int
  deriving DecidableEq, Repr

namespace Decimal

/-- The point nearest to `m * 2 ^ q` among the two multiples of `10 ^ k` around it, of those that
read back as the double `m * 2 ^ q`; a tie goes up. Lengths are counted in quarters of `2 ^ q`,
times `scale / unit` to make them multiples of `10 ^ k`. Below a power of two the doubles lie twice
as close, and the ends of the interval belong to it when `m` is even. -/
def onGrid? (m : Nat) (q k : Int) : Option Decimal :=
  let scale := Nat.pow 10 (-k).toNat <<< (q - 2).toNat
  let unit := Nat.pow 10 k.toNat <<< (2 - q).toNat
  let gap := if m = 1 <<< 52 ∧ -1074 < q then 1 else 2
  let low := (4 * m - gap) * scale
  let value := 4 * m * scale
  let high := (4 * m + 2) * scale
  let readsBack (c : Nat) : Bool :=
    if m % 2 = 0 then low ≤ c * unit && c * unit ≤ high else low < c * unit && c * unit < high
  let below := value / unit
  let nearestFirst :=
    if (2 * below + 1) * unit ≤ 2 * value then [below + 1, below] else [below, below + 1]
  (nearestFirst.find? readsBack).map (⟨·, k⟩)

/-- The shortest decimal that reads back as the double `m * 2 ^ q`. Every double is below
`10 ^ 309`, and the multiples of `10 ^ (-324)` meet every interval. -/
def shortest (m : Nat) (q : Int) : Decimal :=
  ((List.range 634).findSome? fun (i : Nat) => onGrid? m q (309 - i)).getD ⟨0, 0⟩

def text (d : Decimal) : String :=
  let digits := Nat.toDigits 10 d.coefficient
  if 0 ≤ d.exponent then String.ofList (digits ++ List.replicate d.exponent.toNat '0')
  else
    let places := (-d.exponent).toNat
    let padded := List.replicate (places + 1 - digits.length) '0' ++ digits
    let whole := padded.length - places
    String.ofList (padded.take whole ++ '.' :: padded.drop whole)

def scientificText (d : Decimal) : String :=
  let digits := Nat.toDigits 10 d.coefficient
  let fraction := if digits.length = 1 then [] else '.' :: digits.drop 1
  let power := d.exponent + digits.length - 1
  String.ofList (digits.take 1 ++ fraction) ++ "e" ++ toString power

def dumpText (d : Decimal) (isExtreme : Bool) : String :=
  if isExtreme then d.scientificText
  else if 0 ≤ d.exponent then d.text ++ ".0"
  else d.text

end Decimal

def signText : Float.Model.UnpackedFloat.Sign → String
  | .positive => ""
  | .negative => "-"

def floatText (zeroText : String) (finiteText : Decimal → String) (x : Float) : String :=
  match x.toModel.unpack with
  | .notANumber => "NaN"
  | .infinity sign => signText sign ++ "inf"
  | .zero sign => signText sign ++ zeroText
  | .finite sign m q _ => signText sign ++ finiteText (Decimal.shortest m q)

/-- As in a message; an integral value has no fraction. -/
def decimalText (x : Float) : String :=
  floatText "0" Decimal.text x

/-- As in a dump of values; an integral value has a zero for its fraction. -/
def dumpText (x : Float) : String :=
  floatText "0.0" (Decimal.dumpText · (x.abs < 1e-4 || 1e16 ≤ x.abs)) x

end GlyphDrawing
