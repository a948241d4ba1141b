/-!
# UTF-8

Bytes of a text, and the text of a byte string. A byte string that is no UTF-8 is refused at the
first character that cannot be completed: either a byte rules it out (`invalid`, with the number of
bytes that were still plausible) or the input stops inside it (`incomplete`). Both name the index
of the character's first byte, so everything before that index is good text.
-/

namespace Tablescope.Text.Utf8

/-- Why a byte string is not UTF-8. -/
inductive Fault where
  /-- The `length` bytes from `index` on begin no character. -/
  | invalid (length index : Nat)
  /-- The input ends inside the character that starts at `index`. -/
  | incomplete (index : Nat)
  deriving DecidableEq, Repr

/-- How a fault reads in a message. -/
def Fault.message : Fault → String
  | .invalid length index => s!"invalid utf-8 sequence of {length} bytes from index {index}"
  | .incomplete index => s!"incomplete utf-8 byte sequence from index {index}"

/-- The UTF-8 bytes of a list of characters. -/
def encodeChars (cs : List Char) : List UInt8 := cs.flatMap String.utf8EncodeChar

/-- The UTF-8 bytes of a text. -/
def encode (s : String) : List UInt8 := encodeChars s.toList

/-- How many bytes a character has whose first byte is `lead`; none if no character starts so. -/
def width? (lead : UInt8) : Option Nat :=
  if lead ≤ 0x7F then some 1
  else if 0xC2 ≤ lead && lead ≤ 0xDF then some 2
  else if 0xE0 ≤ lead && lead ≤ 0xEF then some 3
  else if 0xF0 ≤ lead && lead ≤ 0xF4 then some 4
  else none

/-- Any byte after the first two. -/
def isTail (b : UInt8) : Bool := 0x80 ≤ b && b ≤ 0xBF

/-- Whether `b` may follow `lead`: a tail byte, less those that would spell a character in more
bytes than it needs, a surrogate, or a number past the last code point. -/
def maySecond (lead b : UInt8) : Bool :=
  if lead == 0xE0 then 0xA0 ≤ b && b ≤ 0xBF
  else if lead == 0xED then 0x80 ≤ b && b ≤ 0x9F
  else if lead == 0xF0 then 0x90 ≤ b && b ≤ 0xBF
  else if lead == 0xF4 then 0x80 ≤ b && b ≤ 0x8F
  else isTail b

/-- The six payload bits of a tail byte. -/
def tailBits (b : UInt8) : Nat := b.toNat % 0x40

/-- The characters of a byte string whose first byte has the index `start`. -/
def decodeFrom (start : Nat) : List UInt8 → Except Fault (List Char)
  | [] => .ok []
  | a :: rest =>
    match width? a, rest with
    | none, _ => .error (.invalid 1 start)
    | some 1, rest => do
      let cs ← decodeFrom (start + 1) rest
      return Char.ofNat a.toNat :: cs
    | some _, [] => .error (.incomplete start)
    | some 2, b :: rest =>
      if maySecond a b then do
        let cs ← decodeFrom (start + 2) rest
        return Char.ofNat (a.toNat % 0x20 * 0x40 + tailBits b) :: cs
      else .error (.invalid 1 start)
    | some _, [b] => .error (if maySecond a b then .incomplete start else .invalid 1 start)
    | some 3, b :: c :: rest =>
      if !maySecond a b then .error (.invalid 1 start)
      else if !isTail c then .error (.invalid 2 start)
      else do
        let cs ← decodeFrom (start + 3) rest
        return Char.ofNat (a.toNat % 0x10 * 0x1000 + tailBits b * 0x40 + tailBits c) :: cs
    | some _, [b, c] =>
      .error (if !maySecond a b then .invalid 1 start
        else if !isTail c then .invalid 2 start
        else .incomplete start)
    | some _, b :: c :: d :: rest =>
      if !maySecond a b then .error (.invalid 1 start)
      else if !isTail c then .error (.invalid 2 start)
      else if !isTail d then .error (.invalid 3 start)
      else do
        let cs ← decodeFrom (start + 4) rest
        return Char.ofNat
          (a.toNat % 0x08 * 0x40000 + tailBits b * 0x1000 + tailBits c * 0x40 + tailBits d) :: cs

/-- The text of a byte string, or the first fault in it. -/
def decode (bytes : List UInt8) : Except Fault String :=
  (decodeFrom 0 bytes).map String.ofList

end Tablescope.Text.Utf8
