/-!
# Reading UTF-8

The first byte of a character fixes how many bytes follow it and which values they may have, so that
overlong forms, surrogates and values past the last code point never arise. Bytes that begin no
character are reported together with what was right of them: a fault covers the bytes read up to
the first one that does not fit.
-/

namespace CPreprocessor.Text.Utf8

/-- What is wrong with some bytes. -/
inductive Reason where
  | invalidStart
  | invalidContinuation
  | unexpectedEnd
deriving DecidableEq, Repr

/-- A reason in words. -/
def Reason.message : Reason → String
  | invalidStart => "invalid start byte"
  | invalidContinuation => "invalid continuation byte"
  | unexpectedEnd => "unexpected end of data"

/-- The bytes from offset `start` on that are no character: the first of them and how many more. -/
structure Fault where
  start : Nat
  first : UInt8
  more : Nat
  reason : Reason
deriving DecidableEq, Repr

/-- A byte in hexadecimal, with two digits. -/
def hexadecimal (byte : UInt8) : String :=
  String.ofList [Nat.digitChar (byte.toNat / 16), Nat.digitChar (byte.toNat % 16)]

/-- A fault in words. -/
def Fault.message (fault : Fault) : String :=
  let place :=
    if fault.more = 0 then
      "byte 0x" ++ hexadecimal fault.first ++ " in position " ++ toString fault.start
    else
      "bytes in position " ++ toString fault.start ++ "-" ++ toString (fault.start + fault.more)
  "'utf-8' codec can't decode " ++ place ++ ": " ++ fault.reason.message

/-- The least and greatest value of a byte. -/
abbrev ByteRange := UInt8 × UInt8

/-- Any byte that continues a character. -/
def continuation : ByteRange := (0x80, 0xBF)

/-- The bits that the first byte of a character contributes, and the bytes that have to follow. -/
def lead? (byte : UInt8) : Option (Nat × List ByteRange) :=
  if byte < 0x80 then some (byte.toNat, [])
  else if byte < 0xC2 then none
  else if byte < 0xE0 then some (byte.toNat - 0xC0, [continuation])
  else if byte = 0xE0 then some (0, [(0xA0, 0xBF), continuation])
  else if byte = 0xED then some (0xD, [(0x80, 0x9F), continuation])
  else if byte < 0xF0 then some (byte.toNat - 0xE0, [continuation, continuation])
  else if byte = 0xF0 then some (0, [(0x90, 0xBF), continuation, continuation])
  else if byte < 0xF4 then some (byte.toNat - 0xF0, [continuation, continuation, continuation])
  else if byte = 0xF4 then some (4, [(0x80, 0x8F), continuation, continuation])
  else none

/-- A character that is partly read. -/
structure Unfinished where
  first : UInt8
  /-- How many bytes have been read behind the first. -/
  more : Nat
  value : Nat
  expected : ByteRange
  later : List ByteRange
deriving DecidableEq, Repr

/-- The fault of a character that ends before the byte at `offset`. -/
def Unfinished.fault (unfinished : Unfinished) (offset : Nat) (reason : Reason) : Fault :=
  ⟨offset - unfinished.more - 1, unfinished.first, unfinished.more, reason⟩

/-- Reads bytes from `offset` on, in the middle of a character or at the start of one. -/
def decodeFrom (offset : Nat) : Option Unfinished → List UInt8 → Except Fault (List Char)
  | none, [] => .ok []
  | some unfinished, [] => .error (unfinished.fault offset .unexpectedEnd)
  | none, byte :: rest =>
    match lead? byte with
    | none => .error ⟨offset, byte, 0, .invalidStart⟩
    | some (value, []) => return Char.ofNat value :: (← decodeFrom (offset + 1) none rest)
    | some (value, expected :: later) =>
      decodeFrom (offset + 1) (some ⟨byte, 0, value, expected, later⟩) rest
  | some unfinished, byte :: rest =>
    if unfinished.expected.1 ≤ byte ∧ byte ≤ unfinished.expected.2 then
      let value := unfinished.value * 64 + byte.toNat % 64
      match unfinished.later with
      | [] => return Char.ofNat value :: (← decodeFrom (offset + 1) none rest)
      | expected :: later =>
        decodeFrom (offset + 1)
          (some ⟨unfinished.first, unfinished.more + 1, value, expected, later⟩) rest
    else .error (unfinished.fault offset .invalidContinuation)

/-- The characters that bytes encode. -/
def decode (bytes : List UInt8) : Except Fault (List Char) := decodeFrom 0 none bytes

end CPreprocessor.Text.Utf8
