/-!
# Number/Binary64 — numbers of 64-bit binary floating point, in exact arithmetic

A finite number is a sign, a mantissa below `2 ^ 53` and a binary exponent of at least `-1074`.
Everything is computed on natural numbers: `nearest` rounds a quotient to the closest number, a tie
to the even mantissa; `shortestDigits` finds the fewest decimal digits that read back.
-/

namespace FluentBuilders

/-- **A number of 64-bit binary floating point.**  The value of `finite s m e` is `± m · 2 ^ e`. -/
inductive Binary64 where
  | finite (negative : Bool) (mantissa : Nat) (exponent : Int)
  | infinite (negative : Bool)
  | nan
  deriving DecidableEq, Repr, Inhabited

namespace Binary64

/-- The least exponent, that of the smallest positive number. -/
def leastExponent : Int := -1074

/-- The greatest exponent of a finite number. -/
def greatestExponent : Int := 971

/-- The least mantissa of 53 bits, `2 ^ 52`. -/
def leastMantissa : Nat := 4503599627370496

/-- `2 ^ e` as a quotient of natural numbers. -/
def powerOfTwo (e : Int) : Nat × Nat :=
  if 0 ≤ e then (Nat.pow 2 e.toNat, 1) else (1, Nat.pow 2 (-e).toNat)

/-- `num / den` rounded to the nearest natural number, a half to the even neighbour. -/
def roundEven (num den : Nat) : Nat :=
  let q := num / den
  let r := num % den
  if 2 * r < den then q
  else if den < 2 * r then q + 1
  else if q % 2 = 0 then q else q + 1

/-- The exponent at which the mantissa of `num / den` has 53 bits, or the least exponent. -/
def exponentOf (num den : Nat) : Int :=
  let guess : Int := (num.log2 : Int) - (den.log2 : Int) - 52
  let (p, q) := powerOfTwo guess
  -- the guess is off by one at most: too large when fewer than 53 bits are left of the point
  let e := if num * q < leastMantissa * (den * p) then guess - 1 else guess
  max e leastExponent

/-- **The number nearest to `± num / den`**, of two the one with an even mantissa. -/
def nearest (negative : Bool) (num den : Nat) : Binary64 :=
  if num = 0 then .finite negative 0 leastExponent
  else
    let e := exponentOf num den
    let (p, q) := powerOfTwo e
    let m := roundEven (num * q) (den * p)
    let (m, e) := if m = 2 * leastMantissa then (leastMantissa, e + 1) else (m, e)
    if greatestExponent < e then .infinite negative else .finite negative m e

/-- **The number a decimal denotes**: `± digits · 10 ^ exponent`. -/
def ofDecimal (negative : Bool) (digits : Nat) (exponent : Int) : Binary64 :=
  -- what is too large or too small for any number is settled without the power of ten
  if digits = 0 ∨ exponent < -(400 + (digits.log2 : Int)) then nearest negative 0 1
  else if 400 < exponent then .infinite negative
  else if 0 ≤ exponent then nearest negative (digits * Nat.pow 10 exponent.toNat) 1
  else nearest negative digits (Nat.pow 10 (-exponent).toNat)

/-- A number's magnitude as a quotient; nothing for infinities and not-a-number. -/
def magnitude? : Binary64 → Option (Nat × Nat)
  | .finite _ m e => let (p, q) := powerOfTwo e; some (m * p, q)
  | _ => none

/-- A finite number as a quotient of an integer and a natural number. -/
def quotient (negative : Bool) (m : Nat) (e : Int) : Int × Nat :=
  let (p, q) := powerOfTwo e
  (if negative then -(m * p : Int) else (m * p : Int), q)

/-- **The difference of two numbers**, rounded to the nearest one. -/
def sub : Binary64 → Binary64 → Binary64
  | .finite s m e, .finite s' m' e' =>
    let (a, q) := quotient s m e
    let (b, q') := quotient s' m' e'
    let d := a * q' - b * q
    nearest (d < 0) d.natAbs (q * q')
  | .infinite s, .finite .. => .infinite s
  | .finite .., .infinite s => .infinite (!s)
  | .infinite s, .infinite s' => if s = s' then .nan else .infinite s
  | .nan, _ | _, .nan => .nan

/-! ## Fewest digits -/

/-- The magnitude of a finite number and the bounds of the interval that rounds to it, all over one
denominator. -/
structure Interval where
  value : Nat
  low : Nat
  high : Nat
  denominator : Nat
  /-- The bounds themselves round to the number. -/
  closed : Bool

/-- The interval of reals that round to `m · 2 ^ e`. -/
def interval (m : Nat) (e : Int) : Interval :=
  let (p, q) := powerOfTwo (e - 2)
  let below := if m = leastMantissa ∧ leastExponent < e then 1 else 2
  { value := 4 * m * p, low := (4 * m - below) * p, high := (4 * m + 2) * p
    denominator := q, closed := m % 2 = 0 }

/-- The decimal `n · num / den` lies in the interval. -/
def Interval.contains (i : Interval) (n num den : Nat) : Bool :=
  let x := n * num * i.denominator
  if i.closed then i.low * den ≤ x && x ≤ i.high * den else i.low * den < x && x < i.high * den

/-- `10 ^ k` as a quotient of natural numbers. -/
def powerOfTen (k : Int) : Nat × Nat :=
  if 0 ≤ k then (Nat.pow 10 k.toNat, 1) else (1, Nat.pow 10 (-k).toNat)

/-- The multiple of `10 ^ k` nearest to the interval's number, if one lies in the interval. -/
def Interval.onGrid? (i : Interval) (k : Int) : Option Nat :=
  let (num, den) := powerOfTen k
  let f := i.value * den / (i.denominator * num)
  let r := i.value * den % (i.denominator * num)
  match i.contains f num den, i.contains (f + 1) num den with
  | true, false => some f
  | false, true => some (f + 1)
  | false, false => none
  | true, true =>
    let twice := 2 * r
    let unit := i.denominator * num
    if twice < unit then some f
    else if unit < twice then some (f + 1)
    else if f % 2 = 0 then some f else some (f + 1)

/-- The least `k` with `num / den < 10 ^ k`, searched upwards from `k` in at most `fuel` steps. -/
def decimalPoint (num den : Nat) : Nat → Int → Int
  | 0, k => k
  | fuel + 1, k =>
    let (p, q) := powerOfTen k
    if num * q < den * p then k else decimalPoint num den fuel (k + 1)

/-- The first grid of `n`, `n + 1`, … significant digits that meets the interval. -/
def Interval.search (i : Interval) (point : Int) : Nat → Nat → Nat × Int
  | 0, n => ((i.onGrid? (point - n)).getD 0, point - n)
  | fuel + 1, n =>
    match i.onGrid? (point - n) with
    | some d => (d, point - n)
    | none => i.search point fuel (n + 1)

/-- **The fewest digits that read back**: `(d, k)` with the number equal to `d · 10 ^ k` once
rounded. -/
def shortestDigits (m : Nat) (e : Int) : Nat × Int :=
  let i := interval m e
  -- 10 ^ 3 < 2 ^ 10 puts the decimal point of a number of b bits above 3 · b / 10 - 1
  let bits : Int := (i.value.log2 : Int) - (i.denominator.log2 : Int)
  i.search (decimalPoint i.value i.denominator 400 (min (bits * 3 / 10) (bits * 4 / 10) - 2)) 17 1

/-- `n` without its trailing zeros, and their count added to `k`. -/
def dropZeros : Nat → Nat → Int → Nat × Int
  | 0, n, k => (n, k)
  | fuel + 1, n, k => if n ≠ 0 ∧ n % 10 = 0 then dropZeros fuel (n / 10) (k + 1) else (n, k)

/-- **The text of a number**: the fewest digits that read back, positional from `0.0001` up to below
`10 ^ 16` and with an exponent of at least two digits otherwise.  A whole number keeps `.0`. -/
def text : Binary64 → String
  | .nan => "nan"
  | .infinite negative => if negative then "-inf" else "inf"
  | .finite negative m e =>
    let sign := if negative then "-" else ""
    if m = 0 then sign ++ "0.0"
    else
      let (d, k) := shortestDigits m e
      let (d, k) := dropZeros 20 d k
      let digits := (toString d).toList
      let point : Int := digits.length + k
      let body : List Char :=
        if -4 < point ∧ point ≤ 16 then
          if point ≤ 0 then '0' :: '.' :: List.replicate (-point).toNat '0' ++ digits
          else if k < 0 then digits.take point.toNat ++ '.' :: digits.drop point.toNat
          else digits ++ List.replicate k.toNat '0' ++ ['.', '0']
        else
          let fraction := if digits.length = 1 then [] else '.' :: digits.drop 1
          let exponent := point - 1
          let size := (toString exponent.natAbs).toList
          let padded := if size.length < 2 then '0' :: size else size
          digits.take 1 ++ fraction ++ 'e' :: (if exponent < 0 then '-' else '+') :: padded
      sign ++ String.ofList body

/-- Below zero. -/
def isNegative : Binary64 → Bool
  | .finite negative m _ => negative && m ≠ 0
  | .infinite negative => negative
  | .nan => false

/-- **The integer a number is**, if it is a whole one. -/
def whole? : Binary64 → Option Int
  | .finite negative m e =>
    let (n, q) := quotient negative m e
    if n % q = 0 then some (n / q) else none
  | _ => none

/-- The number nearest to an integer, if one of its size is finite. -/
def ofInt? (n : Int) : Option Binary64 :=
  match nearest (n < 0) n.natAbs 1 with
  | .finite s m e => some (.finite s m e)
  | _ => none

end Binary64

end FluentBuilders
