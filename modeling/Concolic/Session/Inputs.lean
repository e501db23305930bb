import Concolic.Text.Words
import Concolic.Word

/-!
# Input values

Inputs are written as decimal numbers between blanks.  A number is read as a signed one of 64 bits
or else as an unsigned one; a number that is neither is reported with what kept it from being a
signed one, the first trouble from the left.
-/

namespace Concolic

inductive NumberError where
  | invalidDigit
  | tooLarge
  | tooSmall
deriving DecidableEq, Repr

def NumberError.message : NumberError → String
  | .invalidDigit => "invalid digit found in string"
  | .tooLarge => "number too large to fit in target type"
  | .tooSmall => "number too small to fit in target type"

namespace Inputs

def digit? (c : Char) : Option Nat :=
  if c.isDigit then some (c.toNat - '0'.toNat) else none

/-- Appends decimal digits to `magnitude` as long as the result is at most `bound`. -/
def readDigits (bound : Nat) (excess : NumberError) :
    Nat → List Char → Except NumberError Nat
  | magnitude, [] => .ok magnitude
  | magnitude, c :: rest =>
    match digit? c with
    | none => .error .invalidDigit
    | some digit =>
      let next := 10 * magnitude + digit
      if bound < next then .error excess else readDigits bound excess next rest

/-- The magnitude of the least signed number of 64 bits. -/
def signedLimit : Nat := 0x8000000000000000

/-- The greatest unsigned number of 64 bits. -/
def unsignedLimit : Nat := 0xffffffffffffffff

/-- A sign counts as one only in front of something else. -/
def readSigned : List Char → Except NumberError Int
  | '-' :: c :: rest => do
    let magnitude ← readDigits signedLimit .tooSmall 0 (c :: rest)
    return -magnitude
  | '+' :: c :: rest => Int.ofNat <$> readDigits (signedLimit - 1) .tooLarge 0 (c :: rest)
  | digits => Int.ofNat <$> readDigits (signedLimit - 1) .tooLarge 0 digits

def readUnsigned : List Char → Except NumberError Nat
  | '+' :: c :: rest => readDigits unsignedLimit .tooLarge 0 (c :: rest)
  | digits => readDigits unsignedLimit .tooLarge 0 digits

def readValue (word : List Char) : Except NumberError Value :=
  match readSigned word with
  | .ok number => .ok (.ofInt 64 number)
  | .error error =>
    match readUnsigned word with
    | .ok number => .ok (.ofNat 64 number)
    | .error _ => .error error

end Inputs

/-- A word that is no input value, with its place among the words. -/
structure MalformedInput where
  word : String
  position : Nat
  cause : NumberError
deriving DecidableEq, Repr

def MalformedInput.message (malformed : MalformedInput) : String :=
  s!"malformed input value `{malformed.word}` at position {malformed.position}"

namespace Inputs

def parseWords : Nat → List (List Char) → Except MalformedInput (List Value)
  | _, [] => .ok []
  | position, word :: rest =>
    match readValue word with
    | .error cause => .error ⟨String.ofList word, position, cause⟩
    | .ok value => do
      let values ← parseWords (position + 1) rest
      return value :: values

def parse (text : String) : Except MalformedInput (List Value) :=
  parseWords 0 (Text.words text.toList)

end Inputs

end Concolic
