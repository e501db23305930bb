import Concolic.Codec.Format
import Mathlib.Algebra.Group.Nat.Defs

/-!
# Reading back what was written

A reader takes some bytes when it consumes exactly these from the front of any input.  Readers
that follow each other take what they take one after the other, so that the format of a compound
reads back what it writes as soon as the formats of its components do.
-/

namespace Concolic.Codec

variable {α β : Type}

/-- Whatever follows the bytes is left over. -/
def Reader.Takes (reader : Reader α) (bytes : Bytes) (result : α) : Prop :=
  ∀ rest, reader (bytes ++ rest) = .ok (result, rest)

/-- The format reads back what it writes for this value. -/
def Format.Returns (format : Format α) (value : α) : Prop :=
  format.read.Takes (format.encode value) value

/-! ## Readers -/

namespace Reader

variable {reader : Reader α} {next : α → Reader β} {bytes later : Bytes} {result : α} {value : β}

theorem bind_apply (reader : Reader α) (next : α → Reader β) (input : Bytes) :
    (reader >>= next) input = reader input >>= fun taken ↦ next taken.1 taken.2 :=
  rfl

theorem bind_eq_ok_iff (reader : Reader α) (next : α → Reader β) (input rest : Bytes)
    (result : β) :
    (reader >>= next) input = .ok (result, rest) ↔
      ∃ value later, reader input = .ok (value, later) ∧ next value later = .ok (result, rest) := by
  rw [bind_apply]
  constructor
  · intro both
    cases read : reader input with
    | error cause =>
      rw [read] at both
      cases both
    | ok taken =>
      rw [read] at both
      exact ⟨taken.1, taken.2, rfl, both⟩
  · rintro ⟨value, later, first, second⟩
    rw [first]
    exact second

theorem takes_pure (result : α) : (pure result : Reader α).Takes [] result :=
  fun _ ↦ rfl

theorem Takes.bind (first : reader.Takes bytes result) (second : (next result).Takes later value) :
    (reader >>= next).Takes (bytes ++ later) value := by
  intro rest
  calc (reader >>= next) (bytes ++ later ++ rest)
      = reader (bytes ++ (later ++ rest)) >>= fun taken ↦ next taken.1 taken.2 := by
        rw [List.append_assoc]
        rfl
    _ = next result (later ++ rest) := by rw [first]; rfl
    _ = .ok (value, rest) := second rest

/-- A last step that reads nothing, such as a check that succeeds. -/
theorem Takes.finish (first : reader.Takes bytes result) (last : next result = pure value) :
    (reader >>= next).Takes bytes value := by
  have step : (next result).Takes [] value := last ▸ takes_pure value
  simpa only [List.append_nil] using first.bind step

theorem takes_byte (first : UInt8) : byte.Takes [first] first :=
  fun _ ↦ rfl

theorem takes_take (bytes : Bytes) : (take bytes.length).Takes bytes bytes := by
  intro rest
  simp [take]

/-- Items one after the other. -/
theorem takes_many {item : Reader α} {encode : α → Bytes} {items : List α}
    (each : ∀ value ∈ items, item.Takes (encode value) value) :
    (many item items.length).Takes (items.flatMap encode) items := by
  induction items with
  | nil => exact takes_pure []
  | cons value rest ih =>
    obtain ⟨here, later⟩ := List.forall_mem_cons.mp each
    rw [List.flatMap_cons]
    exact here.bind ((ih later).finish rfl)

theorem decode_eq_ok_iff (reader : Reader α) (input : Bytes) (result : α) :
    reader.decode input = .ok result ↔ reader input = .ok (result, []) := by
  unfold decode
  rcases reader input with _ | ⟨value, _ | ⟨first, rest⟩⟩
  · constructor <;> intro accepted <;> cases accepted
  · constructor <;> intro accepted <;> cases accepted <;> rfl
  · constructor <;> intro accepted <;> cases accepted

/-- Decoding asks that the reader takes all of the input. -/
theorem decode_of_takes (takes : reader.Takes bytes result) :
    reader.decode bytes = .ok result := by
  have all := takes []
  rw [List.append_nil] at all
  rw [Reader.decode, all]
  rfl

end Reader

/-! ## Numbers -/

open Reader

/-- A number is read back from its bytes modulo what the bytes can hold. -/
theorem ofLittleEndian_littleEndian (count number : Nat) :
    ofLittleEndian (littleEndian count number) = number % 256 ^ count := by
  induction count generalizing number with
  | zero => simp [littleEndian, ofLittleEndian, Nat.mod_one]
  | succ count ih =>
    have split : number % 256 ^ (count + 1) =
        number % 256 + 256 * (number / 256 % 256 ^ count) := by
      rw [Nat.pow_succ', Nat.mod_mul]
    simp only [littleEndian, ofLittleEndian, ih, UInt8.toNat_ofNat', split]

theorem takes_littleEndian (count number : Nat) :
    (Reader.take count).Takes (littleEndian count number) (littleEndian count number) := by
  simpa only [length_littleEndian] using takes_take (littleEndian count number)

/-- A number that fits into the bytes after a marker. -/
theorem takes_marked {count number : Nat} (fits : number < 256 ^ count) :
    (do return ofLittleEndian (← Reader.take count) : Reader Nat).Takes
      (littleEndian count number) number := by
  refine (takes_littleEndian count number).finish ?_
  rw [ofLittleEndian_littleEndian, Nat.mod_eq_of_lt fits]

/-- A number of 64 bits is read back from its shortest form. -/
theorem takes_readNumber {number : Nat} (fits : number < 2 ^ 64) :
    readNumber.Takes (encodeNumber number) number := by
  unfold encodeNumber
  split
  · next small =>
    have same : (UInt8.ofNat number).toNat = number := Nat.mod_eq_of_lt (by omega)
    refine (takes_byte _).finish ?_
    simp only [same, if_pos small]
  · split
    · next short => exact (takes_byte 251).bind (takes_marked short)
    · split
      · next middle => exact (takes_byte 252).bind (takes_marked middle)
      · exact (takes_byte 253).bind (takes_marked fits)

theorem length_encodeNumber_pos (number : Nat) : 0 < (encodeNumber number).length := by
  unfold encodeNumber
  split
  · exact Nat.zero_lt_one
  · split
    · exact Nat.zero_lt_succ _
    · split <;> exact Nat.zero_lt_succ _

/-- Interleaving takes one bit for the sign. -/
theorem interleave_lt {number : Int} {bound : Nat} (low : -(bound : Int) ≤ 2 * number)
    (high : 2 * number < bound) : interleave number < bound := by
  cases number with
  | ofNat n =>
    simp only [interleave, Int.ofNat_eq_natCast] at *
    omega
  | negSucc n =>
    simp only [interleave] at *
    omega

theorem interleave_toInt_lt {width : Nat} (word : BitVec width) :
    interleave word.toInt < 2 ^ width := by
  have low : -(2 : Int) ^ width ≤ 2 * word.toInt := BitVec.le_two_mul_toInt
  have high : 2 * word.toInt < (2 : Int) ^ width := BitVec.two_mul_toInt_lt
  exact interleave_lt (by simpa using low) (by simpa using high)

/-! ## Formats -/

namespace Format

theorem decode_encode {format : Format α} {value : α} (returns : format.Returns value) :
    format.decode (format.encode value) = .ok value :=
  decode_of_takes returns

theorem returns_word32 (word : BitVec 32) : word32.Returns word := by
  have fits : word.toNat < 2 ^ 64 := Nat.lt_trans word.isLt (by decide)
  refine (takes_readNumber fits).finish ?_
  rw [if_pos word.isLt, BitVec.ofNat_toNat, BitVec.setWidth_eq]

theorem returns_word64 (word : BitVec 64) : word64.Returns word := by
  refine (takes_readNumber word.isLt).finish ?_
  rw [BitVec.ofNat_toNat, BitVec.setWidth_eq]

theorem returns_signed32 (word : BitVec 32) : signed32.Returns word := by
  have fits : interleave word.toInt < 2 ^ 64 :=
    Nat.lt_trans (interleave_toInt_lt word) (by decide)
  have low : -(2 : Int) ^ 32 ≤ 2 * word.toInt := BitVec.le_two_mul_toInt
  have high : 2 * word.toInt < (2 : Int) ^ 32 := BitVec.two_mul_toInt_lt
  refine (takes_readNumber fits).finish ?_
  simp only [deinterleave_interleave]
  rw [if_pos ⟨by omega, by omega⟩, BitVec.ofInt_toInt]

theorem returns_signed64 (word : BitVec 64) : signed64.Returns word := by
  refine (takes_readNumber (interleave_toInt_lt word)).finish ?_
  rw [deinterleave_interleave, BitVec.ofInt_toInt]

theorem returns_bool (truth : Bool) : bool.Returns truth := by
  cases truth <;> exact fun _ ↦ rfl

/-- A variant is read back when its number has 32 bits. -/
theorem takes_readVariant {count index : Nat} (known : index < count) (few : count ≤ 2 ^ 32) :
    (readVariant count).Takes (encodeNumber index) index := by
  have same : (BitVec.ofNat 32 index).toNat = index := Nat.mod_eq_of_lt (by omega)
  have takes : word32.read.Takes (encodeNumber index) (.ofNat 32 index) := by
    simpa only [Returns, word32, same] using returns_word32 (.ofNat 32 index)
  refine takes.finish ?_
  simp only [same, if_pos known]

theorem returns_oneOf [DecidableEq α] {values : List α} {value : α} (member : value ∈ values)
    (few : values.length ≤ 2 ^ 32) : (oneOf values).Returns value := by
  have known := List.idxOf_lt_length_of_mem member
  have found : values[values.idxOf value]? = some value := by
    rw [List.getElem?_eq_getElem known, List.getElem_idxOf]
  refine (takes_readVariant known few).finish ?_
  rw [found]

theorem returns_pair {first : Format α} {second : Format β} {both : α × β}
    (left : first.Returns both.1) (right : second.Returns both.2) :
    (first.pair second).Returns both :=
  Takes.bind left (Takes.finish right rfl)

theorem returns_list {item : Format α} {items : List α} (countable : items.length < 2 ^ 64)
    (each : ∀ value ∈ items, item.Returns value) : item.list.Returns items :=
  (takes_readNumber countable).bind (takes_many each)

theorem returns_convert {format : Format α} {make : α → β} {parts : β → α} {whole : β}
    (returns : format.Returns (parts whole)) (inverse : make (parts whole) = whole) :
    (format.convert make parts).Returns whole :=
  Takes.finish returns (by rw [inverse])

end Format

end Concolic.Codec
