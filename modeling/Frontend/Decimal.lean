import Frontend.Number
import Frontend.Text.Basic
import Frontend.Text.Case

/-!
# Double-precision numbers

A floating-point value as data: a sign, a significand and a power of two, so that reading and writing
decimal text is exact arithmetic on natural numbers. `nearest` rounds a positive quotient to the
closest double, ties going to the even significand.
-/

namespace Frontend

/-- A double-precision value. A finite value is `significand * 2 ^ exponent`, with its sign. -/
inductive Binary64 where
  | finite (negative : Bool) (significand : Nat) (exponent : Int)
  | infinite (negative : Bool)
  | nan
  deriving DecidableEq, Repr

namespace Binary64

def zero : Binary64 := .finite false 0 0

/-- The same value with the opposite sign. -/
def negate : Binary64 → Binary64
  | .finite negative m q => .finite (!negative) m q
  | .infinite negative => .infinite (!negative)
  | .nan => .nan

/-- Gives a value a sign. -/
def withSign (negative : Bool) : Binary64 → Binary64
  | .finite _ m q => .finite negative m q
  | .infinite _ => .infinite negative
  | .nan => .nan

/-- The least power of two that a double can hold. -/
def minExponent : Int := -1074

/-- The greatest exponent of a finite double. -/
def maxExponent : Int := 971

/-- Divides and rounds to the nearest whole number, a half to the even neighbour. -/
def roundDiv (num den : Nat) : Nat :=
  let quotient := num / den
  let rest := num % den
  if 2 * rest < den then quotient
  else if den < 2 * rest then quotient + 1
  else if quotient % 2 == 0 then quotient else quotient + 1

/-- `n * 2 ^ (-q) / d` as a quotient of natural numbers. -/
def scale (num den : Nat) (q : Int) : Nat × Nat :=
  if q < 0 then (num * Number.twoTo (-q).toNat, den) else (num, den * Number.twoTo q.toNat)

/-- The exponent at which the quotient `num / den` has a significand of 53 bits, or nearly so. -/
def exponentFor (num den : Nat) : Int :=
  let guess : Int := (Nat.log2 num : Int) - (Nat.log2 den : Int) - 52
  let (n, d) := scale num den guess
  let guess := if n / d < Number.twoTo 52 then guess - 1 else guess
  if guess < minExponent then minExponent else guess

/-- The double closest to the positive quotient `num / den`. -/
def nearest (num den : Nat) : Binary64 :=
  if num == 0 then zero
  else
    let q := exponentFor num den
    let (n, d) := scale num den q
    let m := roundDiv n d
    let (m, q) := if m == Number.twoTo 53 then (Number.twoTo 52, q + 1) else (m, q)
    if maxExponent < q then .infinite false else .finite false m q

/-- The double closest to `digits * 10 ^ exponent`. Magnitudes far outside the range of doubles are
settled without large powers. -/
def ofDecimal (digits : Nat) (exponent : Int) : Binary64 :=
  if digits == 0 then zero
  else
    let size : Int := (Text.ofNat digits).length + exponent
    if 400 < size then .infinite false
    else if size < -400 then zero
    else if 0 ≤ exponent then nearest (digits * Number.tenTo exponent.toNat) 1
    else nearest digits (Number.tenTo (-exponent).toNat)

/-- The double closest to `m * 2 ^ exponent`. Magnitudes far outside the range of doubles are settled
without large powers. -/
def ofBinary (m : Nat) (exponent : Int) : Binary64 :=
  if m == 0 then zero
  else
    let size : Int := Nat.log2 m + exponent
    if 1100 < size then .infinite false
    else if size < -1200 then zero
    else if 0 ≤ exponent then nearest (m * Number.twoTo exponent.toNat) 1
    else nearest m (Number.twoTo (-exponent).toNat)

end Binary64

/-! ## Reading numbers

Decimal text as whole numbers of 64 bits and as doubles. -/

namespace Decimal

/-- The range of 64-bit whole numbers. -/
def inWord (n : Int) : Bool := -(Number.twoTo 63 : Int) ≤ n && n < Number.twoTo 63

/-- Reduces a whole number to the 64-bit range by wrapping around. -/
def wrapWord (n : Int) : Int := Int.bmod n (Number.twoTo 64)

/-- Splits a leading sign off: `true` for a minus. -/
def readSign : List Char → Bool × List Char
  | '-' :: rest => (true, rest)
  | '+' :: rest => (false, rest)
  | rest => (false, rest)

/-- Reads a whole number in decimal, with an optional sign. -/
def readInt? (s : String) : Option Int :=
  let (negative, digits) := readSign s.toList
  if digits.isEmpty || !digits.all Text.isDigit then none
  else
    let n : Int := Text.digitsValue digits
    some (if negative then -n else n)

/-- Reads a whole number that fits into 64 bits. -/
def readWord? (s : String) : Option Int := (readInt? s).filter inWord

/-- The exponent part of a number: one of two marks, an optional sign and digits, up to the end. -/
def readExponent? (small large : Char) : List Char → Option Int
  | [] => none
  | mark :: rest => if mark == small || mark == large then readInt? (String.ofList rest) else none

/-- The digits before and behind the point of a number, and what follows them. -/
def readDigits (isDigit : Char → Bool) (cs : List Char) : List Char × List Char × List Char :=
  let whole := cs.takeWhile isDigit
  match cs.dropWhile isDigit with
  | '.' :: more => (whole, more.takeWhile isDigit, more.dropWhile isDigit)
  | more => (whole, [], more)

/-- Reads an unsigned decimal number: digits with at most one point, then an optional exponent. -/
def readMagnitude? (cs : List Char) : Option Binary64 :=
  let (whole, fraction, rest) := readDigits Text.isDigit cs
  if whole.isEmpty && fraction.isEmpty then none
  else
    let exponent := if rest.isEmpty then some 0 else readExponent? 'e' 'E' rest
    exponent.map fun e =>
      Binary64.ofDecimal (Text.digitsValue (whole ++ fraction)) (e - fraction.length)

/-- Whether a character is a hexadecimal digit. -/
def isHexDigit (c : Char) : Bool := (Text.hexValue? c).isSome

/-- Reads an unsigned hexadecimal number: digits with at most one point, then a power of two. -/
def readHexMagnitude? (cs : List Char) : Option Binary64 :=
  let (whole, fraction, rest) := readDigits isHexDigit cs
  if whole.isEmpty && fraction.isEmpty then none
  else (readExponent? 'p' 'P' rest).map fun e =>
    let digits := (whole ++ fraction).filterMap Text.hexValue?
    Binary64.ofBinary (digits.foldl (fun n d => n * 16 + d) 0) (e - 4 * fraction.length)

def namedValue? (cs : List Char) : Option Binary64 :=
  match Text.lower (String.ofList cs) with
  | "inf" | "infinity" => some (.infinite false)
  | _ => none

/-- Whether every underscore stands between two digits; `before` says whether there was a digit just
before. -/
def underscoresFit (isDigit : Char → Bool) : Bool → List Char → Bool
  | _, [] => true
  | before, c :: rest =>
    (c != '_' || (before && (rest.head?.map isDigit).getD false)) &&
      underscoresFit isDigit (isDigit c) rest

/-- Drops the underscores of a number when each stands between two digits. -/
def dropUnderscores? (isDigit : Char → Bool) (before : Bool) (cs : List Char) :
    Option (List Char) :=
  if underscoresFit isDigit before cs then some (cs.filter (· != '_')) else none

/-- Reads an unsigned number: a name, a decimal number, or a hexadecimal one, whose mark counts as a
digit before an underscore. -/
def readUnsigned? (cs : List Char) : Option Binary64 :=
  match namedValue? cs, cs with
  | some v, _ => some v
  | none, '0' :: 'x' :: rest | none, '0' :: 'X' :: rest =>
    (dropUnderscores? isHexDigit true rest).bind readHexMagnitude?
  | none, cs => (dropUnderscores? Text.isDigit false cs).bind readMagnitude?

def readDouble? (s : String) : Option Binary64 :=
  let (negative, cs) := readSign s.toList
  if Text.lower s == "nan" then some .nan
  else (readUnsigned? cs).map (Binary64.withSign negative)

/-- Reads a double whose magnitude is in range. -/
def readFinite? (s : String) : Option Binary64 :=
  (readDouble? s).filter fun
    | .infinite _ => false
    | _ => true

/-! ## Writing doubles

The fewest decimal digits that read back as the same double, the closest such number among those, and
the layout they are written in: positional for exponents from -4 to 5, scientific otherwise. -/

/-- The digits of a number and the position of its point: `0.d₁d₂… * 10 ^ point`. -/
structure Digits where
  digits : List Char
  point : Int
  deriving Repr, DecidableEq

/-- `num / den` scaled by a power of ten. -/
def scaleTen (num den : Nat) (e : Int) : Nat × Nat :=
  if e < 0 then (num * Number.tenTo (-e).toNat, den) else (num, den * Number.tenTo e.toNat)

/-- The number `e` with `10 ^ (e - 1) ≤ num / den < 10 ^ e`, for a positive quotient: the length of
the whole part, or the count of leading zeros of the fraction, negated. -/
def pointOf (num den : Nat) : Int :=
  let whole := num / den
  if whole != 0 then (Text.ofNat whole).length
  else
    -- The quotient of the denominator by the numerator bounds the leading zeros.
    let zeros := (Text.ofNat (den / num)).length
    let (n, d) := scaleTen num den (-(zeros : Int))
    if n / d == 0 then -(zeros : Int) else
      let (n, d) := scaleTen num den (-(zeros : Int) + 1)
      if n / d == 0 then -(zeros : Int) + 1 else -(zeros : Int) + 2

/-- The interval of numbers that round to a double, as numerators over a common denominator:
lower end, value, upper end, denominator, and whether the ends belong to it. -/
structure Interval where
  low : Nat
  value : Nat
  high : Nat
  den : Nat
  closed : Bool

/-- The rounding interval of `m * 2 ^ q`. Below a power of two the neighbour is half as far. -/
def intervalOf (m : Nat) (q : Int) : Interval :=
  let narrow := m == Number.twoTo 52 && Binary64.minExponent < q
  let low := if narrow then 4 * m - 1 else 4 * m - 2
  let (factor, den) := if q < 0 then (1, Number.twoTo (-q).toNat) else (Number.twoTo q.toNat, 1)
  { low := low * factor, value := 4 * m * factor, high := (4 * m + 2) * factor,
    den := 4 * den, closed := m % 2 == 0 }

/-- Whether the grid point `d * 10 ^ e` lies in the interval. -/
def Interval.holds (iv : Interval) (d : Nat) (e : Int) : Bool :=
  let (n, den) := if e < 0 then (d, Number.tenTo (-e).toNat) else (d * Number.tenTo e.toNat, 1)
  let left := n * iv.den
  if iv.closed then iv.low * den ≤ left && left ≤ iv.high * den
  else iv.low * den < left && left < iv.high * den

/-- The best grid point with unit `10 ^ e` in the interval: the closer one of the two around the
value. -/
def Interval.best? (iv : Interval) (e : Int) : Option Nat :=
  let (n, d) := scaleTen iv.value iv.den e
  let below := n / d
  let rest := n % d
  match iv.holds below e, iv.holds (below + 1) e with
  | false, false => none
  | true, false => some below
  | false, true => some (below + 1)
  | true, true =>
    if 2 * rest < d then some below
    else if d < 2 * rest then some (below + 1)
    else some (if below % 2 == 0 then below else below + 1)

/-- Tries ever finer grids, `fuel` of them, from the unit `10 ^ e` on. -/
def firstHit (iv : Interval) : Nat → Int → Nat × Int
  | 0, e => ((scaleTen iv.value iv.den e).1 / (scaleTen iv.value iv.den e).2, e)
  | fuel + 1, e =>
    match iv.best? e with
    | some d => (d, e)
    | none => firstHit iv fuel (e - 1)

/-- The shortest digits that read back as `m * 2 ^ q`. Seventeen digits always do. -/
def shortest (m : Nat) (q : Int) : Digits :=
  if m == 0 then ⟨[], 0⟩
  else
    let iv := intervalOf m q
    let point := pointOf iv.value iv.den
    let (d, e) := firstHit iv 17 (point - 1)
    let digits := Nat.toDigits 10 d
    ⟨Text.dropEndWhile (· == '0') digits, digits.length + e⟩

def padTwo (n : Nat) : List Char := if n < 10 then '0' :: Nat.toDigits 10 n else Nat.toDigits 10 n

/-- Scientific notation: one digit, the others after a point, and a signed exponent. -/
def scientific (d : Digits) : List Char :=
  let exponent := d.point - 1
  let fraction := match d.digits.tail with
    | [] => []
    | more => '.' :: more
  d.digits.take 1 ++ fraction ++ ['e', if exponent < 0 then '-' else '+'] ++ padTwo exponent.natAbs

def positional (d : Digits) : List Char :=
  if d.digits.isEmpty then ['0']
  else if d.point ≤ 0 then
    '0' :: '.' :: (List.replicate (-d.point).toNat '0' ++ d.digits)
  else
    let whole := d.point.toNat
    if d.digits.length ≤ whole then d.digits ++ List.replicate (whole - d.digits.length) '0'
    else d.digits.take whole ++ '.' :: d.digits.drop whole

/-- The general notation: scientific when the decimal exponent is below -4 or at least 6. -/
def general (d : Digits) : List Char :=
  let exponent := d.point - 1
  if !d.digits.isEmpty && (exponent < -4 || 6 ≤ exponent) then scientific d else positional d

/-- The text of a double in general notation. -/
def ofDouble : Binary64 → String
  | .nan => "NaN"
  | .infinite negative => if negative then "-Inf" else "+Inf"
  | .finite negative m q =>
    String.ofList ((if negative then ['-'] else []) ++ general (shortest m q))

end Decimal

end Frontend
