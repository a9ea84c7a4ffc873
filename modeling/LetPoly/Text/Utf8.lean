-- From bytes to text. Bytes that are no text are told with the place and the
-- reason.
import LetPoly.Text.Hex

namespace LetPoly.Text

/-- Why bytes are no text. -/
inductive Utf8Reason where
  | invalidStart
  | invalidContinuation
  | unexpectedEnd
deriving DecidableEq, Repr, Inhabited

/-- The bytes that are no text: `count` of them from `start` on, the first being `byte`. -/
structure Utf8Fault where
  reason : Utf8Reason
  byte : UInt8
  start : Nat
  count : Nat
deriving DecidableEq, Repr, Inhabited

/-- The words for a reason. -/
def Utf8Reason.text : Utf8Reason → String
  | invalidStart => "invalid start byte"
  | invalidContinuation => "invalid continuation byte"
  | unexpectedEnd => "unexpected end of data"

/-- The sentence that tells of the fault. -/
def Utf8Fault.message (f : Utf8Fault) : String :=
  let place :=
    if f.count = 1 then
      "byte 0x" ++ String.ofList (hex 2 f.byte.toNat) ++ " in position " ++ toString f.start
    else
      "bytes in position " ++ toString f.start ++ "-" ++ toString (f.start + f.count - 1)
  "'utf-8' codec can't decode " ++ place ++ ": " ++ f.reason.text

/-- A byte that continues a character. -/
def isContinuation (b : UInt8) : Bool := 0x80 ≤ b && b < 0xC0

/-- The six bits that a continuation adds. -/
def continuationBits (b : UInt8) : Nat := b.toNat - 0x80

/-- The byte may follow the first byte of a character of three bytes. -/
def follows3 (first second : UInt8) : Bool :=
  isContinuation second && (if second < 0xA0 then first != 0xE0 else first != 0xED)

/-- The byte may follow the first byte of a character of four bytes. -/
def follows4 (first second : UInt8) : Bool :=
  isContinuation second && (if second < 0x90 then first != 0xF0 else first != 0xF4)

/-- The characters of the bytes that start at a position, after those already read, the latest
first. -/
def decodeFrom (position : Nat) (read : List Char) : List UInt8 → Except Utf8Fault (List Char)
  | [] => .ok read.reverse
  | a :: rest =>
    let fault (reason : Utf8Reason) (count : Nat) : Except Utf8Fault (List Char) :=
      .error ⟨reason, a, position, count⟩
    if a < 0x80 then
      decodeFrom (position + 1) (Char.ofNat a.toNat :: read) rest
    else if a < 0xC2 then
      fault .invalidStart 1
    else if a < 0xE0 then
      match rest with
      | [] => fault .unexpectedEnd 1
      | b :: rest =>
        if isContinuation b then
          decodeFrom (position + 2)
            (Char.ofNat ((a.toNat - 0xC0) * 0x40 + continuationBits b) :: read) rest
        else fault .invalidContinuation 1
    else if a < 0xF0 then
      match rest with
      | [] => fault .unexpectedEnd 1
      | [b] => if follows3 a b then fault .unexpectedEnd 2 else fault .invalidContinuation 1
      | b :: c :: rest =>
        if !follows3 a b then fault .invalidContinuation 1
        else if !isContinuation c then fault .invalidContinuation 2
        else
          decodeFrom (position + 3)
            (Char.ofNat ((a.toNat - 0xE0) * 0x1000 + continuationBits b * 0x40 +
              continuationBits c) :: read) rest
    else if a < 0xF5 then
      match rest with
      | [] => fault .unexpectedEnd 1
      | [b] => if follows4 a b then fault .unexpectedEnd 2 else fault .invalidContinuation 1
      | [b, c] =>
        if !follows4 a b then fault .invalidContinuation 1
        else if !isContinuation c then fault .invalidContinuation 2
        else fault .unexpectedEnd 3
      | b :: c :: d :: rest =>
        if !follows4 a b then fault .invalidContinuation 1
        else if !isContinuation c then fault .invalidContinuation 2
        else if !isContinuation d then fault .invalidContinuation 3
        else
          decodeFrom (position + 4)
            (Char.ofNat ((a.toNat - 0xF0) * 0x40000 + continuationBits b * 0x1000 +
              continuationBits c * 0x40 + continuationBits d) :: read) rest
    else
      fault .invalidStart 1

/-- The characters that bytes stand for. -/
def decodeUtf8 (bytes : List UInt8) : Except Utf8Fault (List Char) :=
  decodeFrom 0 [] bytes

end LetPoly.Text
