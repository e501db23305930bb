/-!
# Reading bytes

A reader takes bytes off the front of its input or says what is wrong with them.  Whoever decodes
a whole text also asks that nothing is left over.
-/

namespace Concolic.Codec

abbrev Bytes := List UInt8

inductive DecodeError where
  | unexpectedEnd
  | trailingBytes
  /-- A number wider than 64 bits is announced. -/
  | wideNumber
  /-- The byte 255, which announces nothing. -/
  | reservedMarker
  | unsignedRange (number : Nat)
  | signedRange (number : Int)
  | unknownVariant (index count : Nat)
  | notBool (byte : Nat)
  /-- The size of the room that is asked for is too great for a number. -/
  | roomOverflow
  | noRoom (size : Nat)
deriving DecidableEq, Repr

namespace DecodeError

def detail : DecodeError → String
  | .unexpectedEnd => "io error: unexpected end of file"
  | .trailingBytes => "Slice had bytes remaining after deserialization"
  | .wideNumber =>
    "Invalid value (u128 range): you may have a version or configuration disagreement?"
  | .reservedMarker =>
    "\nByte 255 is treated as an extension point; it should not be encoding anything.\n" ++
      "Do you have a mismatched bincode version or configuration?\n"
  | .unsignedRange number => s!"Invalid u32 {number}: you may have a version disagreement?"
  | .signedRange number => s!"Invalid i32 {number}: you may have a version disagreement?"
  | .unknownVariant index count =>
    s!"invalid value: integer `{index}`, expected variant index 0 <= i < {count}"
  | .notBool byte => s!"invalid u8 while decoding bool, expected 0 or 1, found {byte}"
  | .roomOverflow => "Allocation error: CapacityOverflow"
  | .noRoom size =>
    s!"Allocation error: AllocErr \x7b layout: Layout \x7b size: {size}, " ++
      "align: 8 (1 << 3) \x7d \x7d"

def message (error : DecodeError) : String :=
  "malformed execution record: " ++ error.detail

end DecodeError

abbrev Reader := StateT Bytes (Except DecodeError)

namespace Reader

def fail {α : Type} (error : DecodeError) : Reader α :=
  fun _ ↦ .error error

def byte : Reader UInt8
  | [] => .error .unexpectedEnd
  | first :: rest => .ok (first, rest)

def take (count : Nat) : Reader Bytes := fun input ↦
  if input.length < count then .error .unexpectedEnd
  else .ok (input.take count, input.drop count)

/-- Reads `count` items one after the other. -/
def many {α : Type} (item : Reader α) : Nat → Reader (List α)
  | 0 => return []
  | count + 1 => do
    let first ← item
    return first :: (← many item count)

/-- Reads a whole text. -/
def decode {α : Type} (reader : Reader α) (input : Bytes) : Except DecodeError α := do
  let (result, rest) ← reader input
  if rest.isEmpty then return result else throw .trailingBytes

end Reader

end Concolic.Codec
