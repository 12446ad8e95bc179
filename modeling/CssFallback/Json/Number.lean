import CssFallback.Text.Quoted

/-!
# Numbers of JSON

A number is an integer if it has neither fraction nor exponent and fits a machine word of
64 bits, signed or not; all other numbers are floating point. Minus zero is floating
point too.

A floating point number is read from the digits that fit an unsigned word and from a
power of ten. Digits of the integral part beyond those count towards the power, digits of
the fraction beyond those are dropped. The digits are rounded first, and then multiplied
or divided by the rounded power.
-/

set_option autoImplicit false

namespace CssFallback

/-!
## Binary floating point

A finite number of the 64-bit format, apart from its sign, is a whole number of units of
two to the power -1074. A quotient is rounded to the nearest such number, and a number is
shown by the shortest decimal that is read back as it.
-/

namespace Binary64

def one : Nat := Nat.pow 2 1074

def limit : Nat := Nat.pow 2 2098

/-- The whole number nearest to a quotient, the even one of two. -/
def roundQuotient (num den : Nat) : Nat :=
  let floor := num / den
  let twice := 2 * (num % den)
  if twice < den then floor else if den < twice then floor + 1 else floor + floor % 2

/-- The number nearest to a quotient, in units: 53 significant bits, and no fraction of a
unit. The result may be beyond the limit. -/
def nearest (num den : Nat) : Nat :=
  let step := Nat.pow 2 ((num * one / den).log2 - 52)
  roundQuotient (num * one) (den * step) * step

structure Decimal where
  digits : Nat
  exponent : Int
  deriving DecidableEq, Repr

def ofDecimal (d : Decimal) : Nat :=
  nearest (d.digits * Nat.pow 10 d.exponent.toNat) (Nat.pow 10 (-d.exponent).toNat)

/-- The multiple of a power of ten that is nearest to a number among those that are read
back as the number; of two, the one with an even last digit. -/
def onGrid? (units : Nat) (exponent : Int) : Option Decimal :=
  let num := units * Nat.pow 10 (-exponent).toNat
  let den := one * Nat.pow 10 exponent.toNat
  let low : Decimal := ⟨num / den, exponent⟩
  let high : Decimal := ⟨num / den + 1, exponent⟩
  let readsBack := fun d => ofDecimal d == units
  let lowFirst := 2 * (num % den) < den ∨ (2 * (num % den) = den ∧ low.digits % 2 = 0)
  if lowFirst then [low, high].find? readsBack else [high, low].find? readsBack

/-- The decimal on the coarsest grid that is no coarser than that of the given exponent
and has one that is read back. -/
def decimalFrom (units : Nat) : (grid : Nat) → Decimal
  | 0 => (onGrid? units (-324)).getD ⟨0, 0⟩
  | grid + 1 => (onGrid? units (grid + 1 - 324)).getD (decimalFrom units grid)

/-- The shortest decimal that is read back as a number, and the nearest to it of those. -/
def toDecimal (units : Nat) : Decimal := decimalFrom units (308 + 324)

end Binary64

/-! ## Numbers -/

inductive Json.Fault where
  /-- It ends too early. -/
  | endOfText
  /-- It goes on in a way that no JSON does. -/
  | malformed
  deriving DecidableEq, Repr

inductive Json.Number where
  | integer (value : Int)
  /-- The absolute value is in units of `Binary64`. -/
  | float (negative : Bool) (units : Nat)
  deriving DecidableEq, Repr

namespace Json.Number

def digitValue (c : Char) : Nat := c.toNat - '0'.toNat

/-- Appends digits to a number as long as the result fits an unsigned word, and counts
the digits left over. -/
def appendDigits (n : Nat) : Text → Nat × Nat
  | [] => (n, 0)
  | c :: rest =>
    if 10 * n + digitValue c < Nat.pow 2 64 then appendDigits (10 * n + digitValue c) rest
    else (n, rest.length + 1)

def power (exponent : Nat) : Nat := Binary64.nearest (Nat.pow 10 exponent) 1

/-- Divides by a power of ten, by no more than `10 ^ 308` at a time. -/
def divide (units exponent : Nat) : Nat :=
  if exponent ≤ 308 then Binary64.nearest units (power exponent)
  else if units = 0 then 0
  else divide (Binary64.nearest units (power 308)) (exponent - 308)
termination_by exponent

def scale (significand : Nat) (exponent : Int) : Except Fault Nat :=
  let units := Binary64.nearest significand 1
  match exponent with
  | .negSucc e => .ok (divide units (e + 1))
  | .ofNat e =>
    if 308 < e then if units = 0 then .ok 0 else .error .malformed
    else
      let product := Binary64.nearest (units * power e) (Binary64.one * Binary64.one)
      if product < Binary64.limit then .ok product else .error .malformed

def faultAt : Text → Fault
  | [] => .endOfText
  | _ :: _ => .malformed

/-- An exponent beyond this is out of range, whatever the digits are, zero excepted. -/
def exponentLimit : Nat := Nat.pow 2 31 - 1

def readExponent (negative : Bool) (significand : Nat) (exponent : Int) (t : Text) :
    Except Fault (Number × Text) :=
  match t with
  | c :: rest =>
    if c = 'e' ∨ c = 'E' then
      let signed := rest.head?.any fun d => d == '+' || d == '-'
      let down := rest.head? == some '-'
      let unsigned := if signed then rest.drop 1 else rest
      let digits := unsigned.takeWhile Char.isDigit
      let following := unsigned.dropWhile Char.isDigit
      if digits = [] then .error (faultAt following)
      else
        let n := digits.foldl (fun n d => min (10 * n + digitValue d) (exponentLimit + 1)) 0
        if exponentLimit < n then
          if significand = 0 ∨ down then .ok (.float negative 0, following)
          else .error .malformed
        else
          (scale significand (if down then exponent - n else exponent + n)).map fun units =>
            (.float negative units, following)
    else (scale significand exponent).map fun units => (.float negative units, c :: rest)
  | [] => (scale significand exponent).map fun units => (.float negative units, [])

def ofDigits (negative : Bool) (significand : Nat) : Number :=
  if negative then
    if significand = 0 ∨ Nat.pow 2 63 < significand then
      .float true (Binary64.nearest significand 1)
    else .integer (-significand)
  else .integer significand

def readUnsigned (negative : Bool) (t : Text) : Except Fault (Number × Text) :=
  let digits := t.takeWhile Char.isDigit
  let following := t.dropWhile Char.isDigit
  if digits = [] then .error (faultAt following)
  else if digits.head? = some '0' ∧ digits ≠ ['0'] then .error .malformed
  else
    let (significand, left) := appendDigits 0 digits
    match following with
    | '.' :: rest =>
      let fraction := rest.takeWhile Char.isDigit
      let beyond := rest.dropWhile Char.isDigit
      if fraction = [] then .error (faultAt beyond)
      else
        let (longer, dropped) := appendDigits significand fraction
        readExponent negative longer ((left : Int) - (fraction.length - dropped : Nat)) beyond
    | c :: _ =>
      if left ≠ 0 ∨ c = 'e' ∨ c = 'E' then readExponent negative significand left following
      else .ok (ofDigits negative significand, following)
    | [] =>
      if left ≠ 0 then readExponent negative significand left following
      else .ok (ofDigits negative significand, following)

def read : Text → Except Fault (Number × Text)
  | '-' :: rest => readUnsigned true rest
  | t => readUnsigned false t

/-- The text of a floating point number: positional as long as the point is within four
zeros before the digits and within sixteen digits, and with a signed exponent otherwise. -/
def floatText (units : Nat) : Text :=
  if units = 0 then "0.0".toList
  else
    let decimal := Binary64.toDecimal units
    let digits := Text.digits 10 decimal.digits
    let point : Int := digits.length + decimal.exponent
    let zeros := fun n => List.replicate n '0'
    if 0 ≤ decimal.exponent ∧ point ≤ 16 then
      digits ++ zeros decimal.exponent.toNat ++ ".0".toList
    else if 0 < point ∧ point ≤ 16 then
      digits.take point.toNat ++ '.' :: digits.drop point.toNat
    else if -5 < point ∧ point ≤ 0 then "0.".toList ++ zeros (-point).toNat ++ digits
    else
      let mantissa :=
        if digits.length = 1 then digits else digits.take 1 ++ '.' :: digits.drop 1
      let exponent := point - 1
      mantissa ++ 'e' :: (if exponent < 0 then '-' else '+') ::
        Text.digits 10 exponent.natAbs

def text : Number → Text
  | .integer value => (if value < 0 then ['-'] else []) ++ Text.digits 10 value.natAbs
  | .float negative units => (if negative then ['-'] else []) ++ floatText units

end Json.Number

end CssFallback
