/-!
# Machine words

Values, addresses and identifiers are words of fixed width.  A value of a narrower C type is kept
in 64 bits, zero or sign extended from the width of its type; `zeroExtend` and `signExtend` bring
the low bits of any word into that form, and `byteRange` cuts bytes out of a word in little-endian
order.
-/

namespace Concolic

abbrev Value := BitVec 64
abbrev Address := BitVec 64
abbrev InputId := BitVec 32
abbrev BranchId := BitVec 32
abbrev InstructionId := BitVec 32
abbrev FunctionId := BitVec 32

def lastAddress : Nat := 0xffffffffffffffff

def zeroExtend (bits : Nat) (value : Value) : Value :=
  if 64 ≤ bits then value else (value.setWidth bits).setWidth 64

/-- Width zero has no sign bit and leaves the word as it is. -/
def signExtend (bits : Nat) (value : Value) : Value :=
  if bits = 0 ∨ 64 ≤ bits then value else (value.setWidth bits).signExtend 64

/-- Bytes `offset` to `offset + bytes` of a word; bytes past the eighth are zero.  A machine counts
bits in words of 32 bits, so that `offset` and `bytes` stay below 2²⁹ there. -/
def byteRange (value : Value) (offset bytes : Nat) : Value :=
  zeroExtend (8 * bytes) (value >>> (8 * offset))

/-- Replaces `bits` bits of `base` from byte `offset` on by the low bits of `part`. -/
def overlay (base : Value) (offset bits : Nat) (part : Value) : Value :=
  if 8 ≤ offset then base
  else
    let field := zeroExtend bits (BitVec.allOnes 64) <<< (8 * offset)
    (base &&& ~~~field) ||| ((part <<< (8 * offset)) &&& field)

/-- Lower-case hexadecimal digits, at least one. -/
def hexDigits {width : Nat} (word : BitVec width) : String :=
  String.ofList (Nat.toDigits 16 word.toNat)

def hex {width : Nat} (word : BitVec width) : String :=
  "0x" ++ hexDigits word

end Concolic
