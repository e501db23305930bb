import Concolic.Proofs.Codec.Tree
import Mathlib.Tactic.SplitIfs

/-!
# Shortest forms

Readers accept numbers in longer forms than needed.  Whatever is read of any input is written in
at most as many bytes as it was read from, and read back from these: numbers by the number of
bytes their marker announces, and all else by what a reader ensures of its result.
-/

namespace Concolic.Codec

variable {α β : Type}

/-- The condition holds of every result and the number of bytes it was read from. -/
def Reader.Ensures (reader : Reader α) (condition : α → Nat → Prop) : Prop :=
  ∀ input value rest, reader input = .ok (value, rest) →
    ∃ taken, input.length = taken + rest.length ∧ condition value taken

/-- Whatever is read is read back from the bytes written for it, and these are no more than it was
read from. -/
def Format.Canonical (format : Format α) : Prop :=
  format.read.Ensures fun value taken ↦
    format.Returns value ∧ (format.encode value).length ≤ taken

/-! ## Readers -/

namespace Reader

variable {reader : Reader α} {next : α → Reader β} {condition weaker : α → Nat → Prop}
  {after : β → Nat → Prop}

theorem ensures_pure {result : α} (holds : condition result 0) :
    (pure result : Reader α).Ensures condition := by
  intro input value rest read
  obtain ⟨rfl, rfl⟩ : result = value ∧ input = rest := by simpa using Except.ok.inj read
  exact ⟨0, (Nat.zero_add _).symm, holds⟩

theorem ensures_fail (cause : DecodeError) : (fail cause : Reader α).Ensures condition := by
  intro input value rest read
  cases read

theorem Ensures.mono (ensures : reader.Ensures condition)
    (implies : ∀ value taken, condition value taken → weaker value taken) :
    reader.Ensures weaker := by
  intro input value rest read
  obtain ⟨taken, length, holds⟩ := ensures input value rest read
  exact ⟨taken, length, implies value taken holds⟩

theorem Ensures.bind (first : reader.Ensures condition)
    (second : ∀ value taken, condition value taken →
      (next value).Ensures fun result more ↦ after result (taken + more)) :
    (reader >>= next).Ensures after := by
  intro input result rest read
  obtain ⟨value, later, read, readNext⟩ := (bind_eq_ok_iff ..).mp read
  obtain ⟨taken, length, holds⟩ := first input value later read
  obtain ⟨more, lengthNext, holdsNext⟩ := second value taken holds later result rest readNext
  exact ⟨taken + more, by omega, holdsNext⟩

theorem Ensures.map {f : α → β} (ensures : reader.Ensures condition)
    (implies : ∀ value taken, condition value taken → after (f value) taken) :
    (do return f (← reader) : Reader β).Ensures after :=
  ensures.bind fun value taken holds ↦ ensures_pure (implies value taken holds)

theorem ensures_byte : byte.Ensures fun _ taken ↦ taken = 1 := by
  intro input value rest read
  cases input with
  | nil => cases read
  | cons first later =>
    cases read
    exact ⟨1, Nat.add_comm _ _, rfl⟩

theorem ensures_take (count : Nat) :
    (take count).Ensures fun bytes taken ↦ bytes.length = count ∧ taken = count := by
  intro input value rest read
  unfold take at read
  split at read
  · cases read
  · next enough =>
    cases read
    refine ⟨count, ?_, ?_, rfl⟩
    · rw [List.length_drop]
      omega
    · rw [List.length_take]
      omega

/-- Items that are each written in no more bytes than they were read from. -/
theorem Ensures.many {each : α → Prop} {encode : α → Bytes}
    (item : reader.Ensures fun value taken ↦ each value ∧ (encode value).length ≤ taken)
    (count : Nat) :
    (many reader count).Ensures fun items taken ↦
      items.length = count ∧ (∀ value ∈ items, each value) ∧
        (items.flatMap encode).length ≤ taken := by
  induction count with
  | zero => exact ensures_pure (by simp)
  | succ count ih =>
    refine item.bind fun first taken ⟨here, fits⟩ ↦ ih.map fun items more ⟨length, all, others⟩ ↦ ?_
    rw [List.length_cons, length, List.flatMap_cons, List.length_append]
    exact ⟨rfl, List.forall_mem_cons.mpr ⟨here, all⟩, Nat.add_le_add fits others⟩

end Reader

/-! ## Numbers -/

open Reader

theorem length_encodeNumber (number : Nat) :
    (encodeNumber number).length =
      if number < 251 then 1
      else if number < 0x10000 then 3
      else if number < 0x100000000 then 5
      else 9 := by
  unfold encodeNumber
  split_ifs <;> rfl

theorem length_encodeNumber_mono {small great : Nat} (le : small ≤ great) :
    (encodeNumber small).length ≤ (encodeNumber great).length := by
  rw [length_encodeNumber, length_encodeNumber]
  split_ifs <;> omega

theorem ofLittleEndian_lt (bytes : Bytes) : ofLittleEndian bytes < 256 ^ bytes.length := by
  induction bytes with
  | nil => exact Nat.one_pos
  | cons first rest ih =>
    have byte : first.toNat < 256 := first.toNat_lt
    rw [ofLittleEndian, List.length_cons, Nat.pow_succ]
    omega

theorem ensures_marked (count : Nat) :
    (do return ofLittleEndian (← take count) : Reader Nat).Ensures fun number taken ↦
      number < 256 ^ count ∧ taken = count := by
  refine (ensures_take count).map fun bytes taken ⟨length, all⟩ ↦ ⟨?_, all⟩
  rw [← length]
  exact ofLittleEndian_lt bytes

/-- A number has 64 bits, and a form shorter than the one it was read from or the same. -/
theorem ensures_readNumber :
    readNumber.Ensures fun number taken ↦
      number < 2 ^ 64 ∧ (encodeNumber number).length ≤ taken := by
  refine Ensures.bind ensures_byte fun first taken one ↦ ?_
  subst one
  dsimp only
  -- the greatest number that the bytes after a marker hold has no longer form than they are
  have marked (count : Nat) (few : 256 ^ count ≤ 2 ^ 64)
      (form : (encodeNumber (256 ^ count - 1)).length ≤ 1 + count) :
      (do return ofLittleEndian (← take count) : Reader Nat).Ensures fun number more ↦
        number < 2 ^ 64 ∧ (encodeNumber number).length ≤ 1 + more := by
    refine (ensures_marked count).mono fun number more ⟨fits, all⟩ ↦ ?_
    subst all
    exact ⟨Nat.lt_of_lt_of_le fits few,
      Nat.le_trans (length_encodeNumber_mono (Nat.le_sub_one_of_lt fits)) form⟩
  split
  · next small =>
    have short : (encodeNumber first.toNat).length = 1 := by
      rw [length_encodeNumber, if_pos small]
    exact ensures_pure ⟨Nat.lt_trans small (by decide), Nat.le_of_eq short⟩
  · split
    · exact marked 2 (by decide) (by decide)
    · split
      · exact marked 4 (by decide) (by decide)
      · split
        · exact marked 8 (by decide) (by decide)
        · split <;> exact ensures_fail _

theorem interleave_deinterleave (number : Nat) : interleave (deinterleave number) = number := by
  unfold deinterleave
  split <;> simp only [interleave] <;> omega

/-- A number of one bit more than the word less the sign. -/
theorem deinterleave_bounds {number bound : Nat} (fits : number < 2 * bound) :
    -(bound : Int) ≤ deinterleave number ∧ deinterleave number < bound := by
  unfold deinterleave
  split <;> constructor <;> grind

/-! ## Formats -/

namespace Format

theorem canonical_word32 : word32.Canonical := by
  refine Ensures.bind ensures_readNumber fun number taken ⟨_, fits⟩ ↦ ?_
  split
  · next small =>
    refine ensures_pure ⟨returns_word32 _, ?_⟩
    have same : (BitVec.ofNat 32 number).toNat = number := Nat.mod_eq_of_lt small
    simpa only [word32, same, Nat.add_zero] using fits
  · exact ensures_fail _

theorem canonical_word64 : word64.Canonical := by
  refine Ensures.map ensures_readNumber fun number taken ⟨small, fits⟩ ↦ ⟨returns_word64 _, ?_⟩
  have same : (BitVec.ofNat 64 number).toNat = number := Nat.mod_eq_of_lt small
  simpa only [word64, same] using fits

theorem canonical_signed32 : signed32.Canonical := by
  refine Ensures.bind ensures_readNumber fun number taken ⟨_, fits⟩ ↦ ?_
  dsimp only
  split
  · next range =>
    refine ensures_pure ⟨returns_signed32 _, ?_⟩
    have same : (BitVec.ofInt 32 (deinterleave number)).toInt = deinterleave number :=
      BitVec.toInt_ofInt_eq_self (by decide) range.1 range.2
    simpa only [signed32, same, interleave_deinterleave, Nat.add_zero] using fits
  · exact ensures_fail _

theorem canonical_signed64 : signed64.Canonical := by
  refine Ensures.map ensures_readNumber fun number taken ⟨small, fits⟩ ↦ ⟨returns_signed64 _, ?_⟩
  have range : number < 2 * 2 ^ 63 := small
  obtain ⟨low, high⟩ := deinterleave_bounds range
  have same : (BitVec.ofInt 64 (deinterleave number)).toInt = deinterleave number :=
    BitVec.toInt_ofInt_eq_self (by decide) low high
  simpa only [signed64, same, interleave_deinterleave] using fits

theorem canonical_bool : bool.Canonical := by
  refine Ensures.bind ensures_byte fun first taken one ↦ ?_
  have fits : 1 ≤ taken := Nat.le_of_eq one.symm
  split
  · exact ensures_pure ⟨returns_bool false, fits⟩
  · split
    · exact ensures_pure ⟨returns_bool true, fits⟩
    · exact ensures_fail _

theorem ensures_readVariant (count : Nat) :
    (readVariant count).Ensures fun index taken ↦
      index < count ∧ (encodeNumber index).length ≤ taken := by
  refine Ensures.bind canonical_word32 fun index taken ⟨_, fits⟩ ↦ ?_
  dsimp only
  split
  · next known => exact ensures_pure ⟨known, fits⟩
  · exact ensures_fail _

theorem canonical_oneOf [DecidableEq α] {values : List α} (few : values.length ≤ 2 ^ 32) :
    (oneOf values).Canonical := by
  refine (ensures_readVariant _).bind fun index taken ⟨known, fits⟩ ↦ ?_
  rw [List.getElem?_eq_getElem known]
  refine ensures_pure ⟨returns_oneOf (List.getElem_mem known) few, ?_⟩
  have first : values.idxOf values[index] ≤ index :=
    Nat.le_of_not_lt fun later ↦ by simpa using List.not_of_lt_findIdx later
  exact Nat.le_trans (length_encodeNumber_mono first) fits

variable {first : Format α} {second : Format β}

theorem canonical_pair (left : first.Canonical) (right : second.Canonical) :
    (first.pair second).Canonical := by
  refine left.bind fun value taken ⟨here, fits⟩ ↦ right.map fun other more ⟨there, others⟩ ↦ ?_
  refine ⟨returns_pair here there, ?_⟩
  rw [pair, List.length_append]
  exact Nat.add_le_add fits others

theorem length_encode_list (items : List α) :
    (first.list.encode items).length =
      (encodeNumber items.length).length + (items.flatMap first.encode).length := by
  rw [list, List.length_append]

theorem ensures_list (item : first.Canonical) :
    first.list.read.Ensures fun items taken ↦
      items.length < 2 ^ 64 ∧ (∀ value ∈ items, first.Returns value) ∧
        (first.list.encode items).length ≤ taken := by
  refine Ensures.bind ensures_readNumber fun count taken ⟨countable, fits⟩ ↦ ?_
  refine (item.many count).mono fun items more ⟨length, each, others⟩ ↦ ?_
  subst length
  rw [length_encode_list]
  exact ⟨countable, each, Nat.add_le_add fits others⟩

theorem canonical_list (item : first.Canonical) : first.list.Canonical :=
  (ensures_list item).mono fun _ _ ⟨countable, each, fits⟩ ↦ ⟨returns_list countable each, fits⟩

theorem canonical_convert {make : α → β} {parts : β → α} (whole : first.Canonical)
    (inverse : ∀ value, parts (make value) = value) : (first.convert make parts).Canonical := by
  refine whole.map fun value taken ⟨returns, fits⟩ ↦ ?_
  rw [← inverse value] at returns fits
  exact ⟨returns_convert returns (congrArg make (inverse value)), fits⟩

end Format

/-! ## Trees -/

open Format Concolic.Expr

theorem Format.canonical_ctype : ctype.Canonical :=
  canonical_oneOf (by decide)

theorem Format.canonical_unaryOp : unaryOp.Canonical :=
  canonical_oneOf (by decide)

theorem Format.canonical_binaryOp : binaryOp.Canonical :=
  canonical_oneOf (by decide)

theorem Format.canonical_compareOp : compareOp.Canonical :=
  canonical_oneOf (by decide)

theorem Format.canonical_pointerOp : pointerOp.Canonical :=
  canonical_oneOf (by decide)

theorem ensures_reserveParts (room count : Nat) :
    (reserveParts room count).Ensures fun _ taken ↦
      taken = 0 ∧ count ≤ room ∧ count ≤ partBound := by
  unfold reserveParts
  split
  · exact ensures_fail _
  · split
    · exact ensures_fail _
    · exact ensures_pure ⟨rfl, by omega, by omega⟩

/-- There was room for the parts of every tree that is read. -/
theorem ensures_readTree (room fuel : Nat) :
    (readTree room fuel).Ensures fun e taken ↦
      Expr.Everywhere (Expr.HasRoom room) e ∧ (encodeTree e).length ≤ taken := by
  induction fuel with
  | zero => exact ensures_fail _
  | succ fuel ih =>
    -- each field says how many bytes it was read from, and what it is written in is added up
    rw [readTree]
    refine (ensures_readVariant 8).bind fun kind _ known ↦ ?_
    split
    · refine canonical_word32.bind fun id _ idFits ↦ canonical_ctype.bind fun ty _ tyFits ↦
        canonical_signed64.map fun value _ valueFits ↦ ⟨(everywhere_leaf rfl).mpr trivial, ?_⟩
      simp only [encodeTree, List.length_append]
      omega
    · refine canonical_ctype.bind fun ty _ tyFits ↦
        canonical_signed64.map fun value _ valueFits ↦ ⟨(everywhere_leaf rfl).mpr trivial, ?_⟩
      simp only [encodeTree, List.length_append]
      omega
    · refine canonical_unaryOp.bind fun op _ opFits ↦ ih.bind fun e _ operand ↦
        canonical_ctype.bind fun ty _ tyFits ↦ canonical_signed64.map fun value _ valueFits ↦
          ⟨(everywhere_unary ..).mpr ⟨trivial, operand.1⟩, ?_⟩
      simp only [encodeTree, List.length_append]
      omega
    · refine canonical_binaryOp.bind fun op _ opFits ↦ ih.bind fun l _ left ↦
        ih.bind fun r _ right ↦ canonical_ctype.bind fun ty _ tyFits ↦
        canonical_signed64.map fun value _ valueFits ↦
          ⟨(everywhere_binary ..).mpr ⟨trivial, left.1, right.1⟩, ?_⟩
      simp only [encodeTree, List.length_append]
      omega
    · refine canonical_compareOp.bind fun op _ opFits ↦ ih.bind fun l _ left ↦
        ih.bind fun r _ right ↦ canonical_ctype.bind fun ty _ tyFits ↦
        canonical_signed64.map fun value _ valueFits ↦
          ⟨(everywhere_compare ..).mpr ⟨trivial, left.1, right.1⟩, ?_⟩
      simp only [encodeTree, List.length_append]
      omega
    · refine canonical_pointerOp.bind fun op _ opFits ↦ ih.bind fun l _ left ↦
        ih.bind fun r _ right ↦ canonical_word64.bind fun size _ sizeFits ↦
        canonical_signed64.map fun value _ valueFits ↦
          ⟨(everywhere_pointer ..).mpr ⟨trivial, left.1, right.1⟩, ?_⟩
      simp only [encodeTree, List.length_append]
      omega
    · refine ih.bind fun e _ whole ↦ canonical_word32.bind fun offset _ offsetFits ↦
        canonical_word32.bind fun bytes _ bytesFit ↦
        canonical_signed64.map fun value _ valueFits ↦
          ⟨(everywhere_slice ..).mpr ⟨trivial, whole.1⟩, ?_⟩
      simp only [encodeTree, List.length_append]
      omega
    · obtain rfl : kind = 7 := by grind
      have part : (do return (← word32.read, ← readTree room fuel) :
          Reader (BitVec 32 × Expr)).Ensures fun part taken ↦
            Expr.Everywhere (Expr.HasRoom room) part.2 ∧
              (word32.encode part.1 ++ encodeTree part.2).length ≤ taken := by
        refine canonical_word32.bind fun offset _ offsetFits ↦ ih.map fun e _ whole ↦ ⟨whole.1, ?_⟩
        rw [List.length_append]
        exact Nat.add_le_add offsetFits.2 whole.2
      refine canonical_ctype.bind fun ty _ tyFits ↦ canonical_word32.bind fun size _ sizeFits ↦
        ensures_readNumber.bind fun count _ countFits ↦
        (ensures_reserveParts room count).bind fun _ _ space ↦
        (part.many count).bind fun parts _ each ↦
        canonical_signed64.map fun value _ valueFits ↦
          ⟨(everywhere_assemble ..).mpr ⟨?_, each.2.1⟩, ?_⟩
      · have fits : parts.length ≤ room ∧ parts.length ≤ partBound := each.1 ▸ space.2
        exact fits
      · simp only [encodeTree, encodeParts_eq_flatMap, List.length_append, each.1]
        omega

theorem Format.canonical_tree (room : Nat) : (Format.tree room).Canonical := by
  intro input value rest read
  obtain ⟨taken, length, fits, shorter⟩ := ensures_readTree room input.length input value rest read
  exact ⟨taken, length, returns_tree fits, shorter⟩

end Concolic.Codec
