import Concolic.Word

/-!
# C types

The scalar types of a C program under the LP64 model, and `struct` for aggregates.  The size of an
aggregate is not part of its type: it travels in the place of the value.
-/

namespace Concolic

inductive CType where
  | bool
  | uchar
  | char
  | ushort
  | short
  | uint
  | int
  | ulong
  | long
  | ulonglong
  | longlong
  | struct
deriving DecidableEq, Repr, Inhabited

namespace CType

/-- The type of an address. -/
abbrev pointer : CType := .ulong

/-- The type of the distance between two addresses. -/
abbrev distance : CType := .long

def tag : CType → Int
  | .bool => -1
  | .uchar => 0
  | .char => 1
  | .ushort => 2
  | .short => 3
  | .uint => 4
  | .int => 5
  | .ulong => 6
  | .long => 7
  | .ulonglong => 8
  | .longlong => 9
  | .struct => 10

/-- In the order of their tags. -/
def all : List CType :=
  [.bool, .uchar, .char, .ushort, .short, .uint, .int, .ulong, .long, .ulonglong, .longlong,
    .struct]

def ofTag? (n : Int) : Option CType :=
  all.find? fun ty ↦ ty.tag = n

/-- The size in bytes; an aggregate has none of its own. -/
def size : CType → Nat
  | .bool | .uchar | .char => 1
  | .ushort | .short => 2
  | .uint | .int => 4
  | .ulong | .long | .ulonglong | .longlong => 8
  | .struct => 0

def bits (ty : CType) : Nat :=
  8 * ty.size

def isSigned : CType → Bool
  | .char | .short | .int | .long | .longlong => true
  | _ => false

def isStruct : CType → Bool
  | .struct => true
  | _ => false

/-- The integer type of exactly `bytes` bytes. -/
def ofSize? (bytes : Nat) (signed : Bool) : Option CType :=
  match bytes, signed with
  | 1, false => some .uchar
  | 1, true => some .char
  | 2, false => some .ushort
  | 2, true => some .short
  | 4, false => some .uint
  | 4, true => some .int
  | 8, false => some .ulong
  | 8, true => some .long
  | _, _ => none

/-- C conversion to the type: zero or sign extended from its width, and 0 or 1 for `bool`. -/
def normalize (ty : CType) (value : Value) : Value :=
  match ty with
  | .bool => if value = 0 then 0 else 1
  | .struct => value
  | ty => if ty.isSigned then signExtend ty.bits value else zeroExtend ty.bits value

def text : CType → String
  | .bool => "bool"
  | .uchar => "u8"
  | .char => "i8"
  | .ushort => "u16"
  | .short => "i16"
  | .uint => "u32"
  | .int => "i32"
  | .ulong | .ulonglong => "u64"
  | .long | .longlong => "i64"
  | .struct => "struct"

instance : ToString CType := ⟨text⟩

theorem ofTag?_eq_some_iff (n : Int) (ty : CType) : ofTag? n = some ty ↔ ty.tag = n := by
  constructor
  · intro found
    simpa using List.find?_some found
  · rintro rfl
    cases ty <;> rfl

theorem size_of_ofSize? {bytes : Nat} {signed : Bool} {ty : CType}
    (found : ofSize? bytes signed = some ty) : ty.size = bytes ∧ ty.isSigned = signed := by
  unfold ofSize? at found
  split at found <;> simp_all <;> subst found <;> simp [size, isSigned]

end CType

/-- A value together with the type it was produced at. -/
structure TypedValue where
  ty : CType
  value : Value
deriving DecidableEq, Repr

namespace TypedValue

def of (ty : CType) (value : Value) : TypedValue :=
  ⟨ty, ty.normalize value⟩

/-- The bytes occupied; the value of an aggregate is its size. -/
def bytes (typed : TypedValue) : Nat :=
  if typed.ty.isStruct then typed.value.toNat else typed.ty.size

end TypedValue

end Concolic
