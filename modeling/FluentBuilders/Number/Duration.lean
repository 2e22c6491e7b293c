import FluentBuilders.Number.Binary64

/-!
# Number/Duration — how long a run took, in words a person reads

Below a minute a duration has one decimal place; from a minute on it is whole minutes and whole
seconds.  A negative duration counts as none.
-/

namespace FluentBuilders

namespace Binary64

/-- **Whole minutes and the seconds left** of `m · 2 ^ e` seconds: the seconds are an exact
quotient; the minutes are what floating-point division leaves of the rest, rounded to a whole
number. -/
def minutesAndSeconds (m : Nat) (e : Int) : Nat × (Nat × Nat) :=
  let (p, q) := powerOfTwo e
  let value := m * p
  let seconds := value % (60 * q)
  let minutes :=
    match (nearest false (value - seconds) q).magnitude? with
    | none => 0
    | some (n, d) =>
      match (nearest false n (60 * d)).magnitude? with
      | none => 0
      | some (n, d) => if d < 2 * (n % d) then n / d + 1 else n / d
  (minutes, seconds, q)

end Binary64

/-- **Why a duration has no text.** -/
inductive DurationError where
  | notANumber
  /-- No floating-point number is as large. -/
  | oversized
  deriving DecidableEq, Repr

/-- `num / den` with one decimal place, a half going to the even digit. -/
def oneDecimalPlace (num den : Nat) : String :=
  let tenths := Binary64.roundEven (10 * num) den
  toString (tenths / 10) ++ "." ++ toString (tenths % 10)

/-- **The text of a duration** in seconds. -/
def durationText : Binary64 → Except DurationError String
  | .nan => .error .notANumber
  | .infinite false => .error .notANumber
  | .infinite true => .ok "0.0s"
  | .finite negative m e =>
    if negative && m ≠ 0 then .ok "0.0s"
    else
      let (minutes, num, den) := Binary64.minutesAndSeconds m e
      if minutes = 0 then .ok (oneDecimalPlace num den ++ "s")
      else .ok (toString minutes ++ "m " ++ toString (num / den) ++ "s")

/-- The text of a whole number of seconds. -/
def durationTextOfInt (seconds : Int) : Except DurationError String :=
  match Binary64.ofInt? seconds with
  | some x => durationText x
  | none => .error .oversized

end FluentBuilders
