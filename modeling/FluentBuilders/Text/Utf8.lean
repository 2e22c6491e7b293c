/-!
# Text/Utf8 — text from bytes, and where bytes stop being text

Decoding reads one byte at a time.  Between two characters any first byte may come; inside a
character the bounds of the byte to come are known.  A fault names the bytes that begin a character
and cannot end it.
-/

namespace FluentBuilders.Text

/-- **Why bytes are no text.** -/
inductive Utf8Reason where
  /-- No character begins with the byte. -/
  | start
  /-- A character is broken off by a byte that cannot go on with it. -/
  | continuation
  /-- The bytes end inside a character. -/
  | cutOff
  deriving DecidableEq, Repr

/-- **Bytes that are no text**: where they are, how many, and the first of them. -/
structure Utf8Fault where
  position : Nat
  size : Nat
  first : Nat
  reason : Utf8Reason
  deriving DecidableEq, Repr

/-- **A character begun**: its first byte, how many bytes of it were read, its code point so far,
and the bounds of the bytes to come. -/
structure Begun where
  first : Nat
  size : Nat
  code : Nat
  next : Nat × Nat
  later : List (Nat × Nat)

/-- The bounds of a byte inside a character. -/
def inner : Nat × Nat := (0x80, 0xBF)

/-- The bounds of the byte after a first byte: they leave out longer forms than needed, surrogates,
and what lies above U+10FFFF. -/
def second : Nat → Nat × Nat
  | 0xE0 => (0xA0, 0xBF)
  | 0xED => (0x80, 0x9F)
  | 0xF0 => (0x90, 0xBF)
  | 0xF4 => (0x80, 0x8F)
  | _ => inner

/-- What a first byte brings of its character's code point, and the bounds of the bytes to come. -/
def begin? (b : Nat) : Option (Nat × List (Nat × Nat)) :=
  if b < 0x80 then some (b, [])
  else if b < 0xC2 then none
  else if b < 0xE0 then some (b - 0xC0, [inner])
  else if b < 0xF0 then some (b - 0xE0, [second b, inner])
  else if b < 0xF5 then some (b - 0xF0, [second b, inner, inner])
  else none

/-- The fault of a character that breaks off before `position`. -/
def Begun.fault (c : Begun) (position : Nat) (reason : Utf8Reason) : Utf8Fault :=
  ⟨position - c.size, c.size, c.first, reason⟩

/-- Decodes the bytes from `position` on; `done` holds the characters before them, last first. -/
def decodeFrom (position : Nat) (begun : Option Begun) (done : List Char) :
    List Nat → Except Utf8Fault (List Char)
  | [] =>
    match begun with
    | none => .ok done.reverse
    | some c => .error (c.fault position .cutOff)
  | b :: bytes =>
    match begun with
    | none =>
      match begin? b with
      | none => .error ⟨position, 1, b, .start⟩
      | some (code, []) => decodeFrom (position + 1) none (Char.ofNat code :: done) bytes
      | some (code, next :: later) =>
        decodeFrom (position + 1) (some ⟨b, 1, code, next, later⟩) done bytes
    | some c =>
      if c.next.1 ≤ b ∧ b ≤ c.next.2 then
        let code := c.code * 64 + (b - 0x80)
        match c.later with
        | [] => decodeFrom (position + 1) none (Char.ofNat code :: done) bytes
        | next :: later =>
          decodeFrom (position + 1) (some ⟨c.first, c.size + 1, code, next, later⟩) done bytes
      else .error (c.fault position .continuation)

/-- **The text that bytes hold.** -/
def decode (bytes : ByteArray) : Except Utf8Fault (List Char) :=
  decodeFrom 0 none [] (bytes.toList.map (·.toNat))

/-- Every line break in its short form: a carriage return, with or without a line feed after it, is
a line feed. -/
def unifyLineBreaks : List Char → List Char
  | [] => []
  | '\r' :: '\n' :: cs => '\n' :: unifyLineBreaks cs
  | c :: cs => (if c = '\r' then '\n' else c) :: unifyLineBreaks cs

/-- **The text of a text file**, with its line breaks unified. -/
def ofFile (bytes : ByteArray) : Except Utf8Fault String :=
  (decode bytes).map fun cs => String.ofList (unifyLineBreaks cs)

end FluentBuilders.Text
