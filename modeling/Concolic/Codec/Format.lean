import Concolic.Codec.Reader
import Concolic.WordMap

/-!
# Binary formats

A format is an encoding with a reader for it.  A number below 251 is one byte; greater ones follow
a marker byte in two, four or eight bytes, lowest first.  Negative numbers are interleaved with
the others (0, -1, 1, -2, …).  A list is its length and its items, a map the list of its entries.
Readers accept a number in a longer form than needed and entries in any order.
-/

namespace Concolic.Codec

def littleEndian : Nat → Nat → Bytes
  | 0, _ => []
  | count + 1, number => .ofNat number :: littleEndian count (number / 256)

def ofLittleEndian : Bytes → Nat
  | [] => 0
  | first :: rest => first.toNat + 256 * ofLittleEndian rest

/-- The shortest form of a number of at most 64 bits. -/
def encodeNumber (number : Nat) : Bytes :=
  if number < 251 then [.ofNat number]
  else if number < 0x10000 then 251 :: littleEndian 2 number
  else if number < 0x100000000 then 252 :: littleEndian 4 number
  else 253 :: littleEndian 8 number

def readNumber : Reader Nat := do
  let marker := (← Reader.byte).toNat
  if marker < 251 then return marker
  else if marker = 251 then return ofLittleEndian (← Reader.take 2)
  else if marker = 252 then return ofLittleEndian (← Reader.take 4)
  else if marker = 253 then return ofLittleEndian (← Reader.take 8)
  else if marker = 254 then Reader.fail .wideNumber
  else Reader.fail .reservedMarker

def interleave : Int → Nat
  | .ofNat n => 2 * n
  | .negSucc n => 2 * n + 1

def deinterleave (number : Nat) : Int :=
  if number % 2 = 0 then .ofNat (number / 2) else .negSucc (number / 2)

structure Format (α : Type) where
  encode : α → Bytes
  read : Reader α

namespace Format

variable {α β : Type}

def decode (format : Format α) (input : Bytes) : Except DecodeError α :=
  format.read.decode input

def number : Format Nat where
  encode := encodeNumber
  read := readNumber

/-- A word of 32 bits; greater numbers are refused. -/
def word32 : Format (BitVec 32) where
  encode word := encodeNumber word.toNat
  read := do
    let number ← readNumber
    if number < 0x100000000 then return .ofNat 32 number else Reader.fail (.unsignedRange number)

def word64 : Format (BitVec 64) where
  encode word := encodeNumber word.toNat
  read := return .ofNat 64 (← readNumber)

/-- A word of 32 bits as a signed number. -/
def signed32 : Format (BitVec 32) where
  encode word := encodeNumber (interleave word.toInt)
  read := do
    let number := deinterleave (← readNumber)
    if -0x80000000 ≤ number ∧ number < 0x80000000 then return .ofInt 32 number
    else Reader.fail (.signedRange number)

/-- A word of 64 bits as a signed number. -/
def signed64 : Format (BitVec 64) where
  encode word := encodeNumber (interleave word.toInt)
  read := return .ofInt 64 (deinterleave (← readNumber))

def bool : Format Bool where
  encode truth := [if truth then 1 else 0]
  read := do
    let byte ← Reader.byte
    if byte = 0 then return false
    else if byte = 1 then return true
    else Reader.fail (.notBool byte.toNat)

/-- The number of one of `count` variants. -/
def readVariant (count : Nat) : Reader Nat := do
  let index := (← word32.read).toNat
  if index < count then return index else Reader.fail (.unknownVariant index count)

/-- One of the listed values, written as its place in the list. -/
def oneOf [DecidableEq α] (values : List α) : Format α where
  encode value := encodeNumber (values.idxOf value)
  read := do
    let index ← readVariant values.length
    match values[index]? with
    | some value => return value
    | none => Reader.fail (.unknownVariant index values.length)

def pair (first : Format α) (second : Format β) : Format (α × β) where
  encode both := first.encode both.1 ++ second.encode both.2
  read := return (← first.read, ← second.read)

def list (item : Format α) : Format (List α) where
  encode items := encodeNumber items.length ++ items.flatMap item.encode
  read := do
    let count ← readNumber
    Reader.many item.read count

/-- Reads a value by what it is made from. -/
def convert (format : Format α) (make : α → β) (parts : β → α) : Format β where
  encode whole := format.encode (parts whole)
  read := return make (← format.read)

def wordMap {width : Nat} (key : Format (BitVec width)) (value : Format α) :
    Format (WordMap width α) :=
  (list (pair key value)).convert .ofList WordMap.entries

end Format

theorem length_littleEndian (count number : Nat) :
    (littleEndian count number).length = count := by
  induction count generalizing number with
  | zero => rfl
  | succ count ih => simp [littleEndian, ih]

theorem deinterleave_interleave (number : Int) : deinterleave (interleave number) = number := by
  cases number with
  | ofNat n => simp [interleave, deinterleave]
  | negSucc n =>
    have odd : (2 * n + 1) % 2 = 1 := by omega
    have half : (2 * n + 1) / 2 = n := by omega
    simp [interleave, deinterleave, odd, half]

end Concolic.Codec
