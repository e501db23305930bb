import Concolic.Proofs.Codec.Record

/-!
# Longer and shorter inputs

What a reader makes of an input it makes of every longer one, unless the input ended too early.  A
reader therefore accepts no two inputs of which one begins with the other: cutting an accepted
input off lets it end too early, and adding to it leaves bytes over.
-/

namespace Concolic.Codec

variable {α β : Type}

/-- What `reader` settles on an input, `longer` gives on every input that begins with it. -/
structure Reader.StableTo (reader longer : Reader α) : Prop where
  ok : ∀ input more value rest, reader input = .ok (value, rest) →
    longer (input ++ more) = .ok (value, rest ++ more)
  error : ∀ input more cause, reader input = .error cause → cause ≠ .unexpectedEnd →
    longer (input ++ more) = .error cause

def Reader.Stable (reader : Reader α) : Prop :=
  reader.StableTo reader

/-! ## Readers -/

namespace Reader

variable {reader longer : Reader α} {next nextLonger : α → Reader β}

theorem stable_pure (result : α) : (pure result : Reader α).Stable where
  ok input more value rest read := by
    obtain ⟨rfl, rfl⟩ : result = value ∧ input = rest := by simpa using Except.ok.inj read
    rfl
  error input more cause read := by cases read

theorem stable_fail (cause : DecodeError) : (fail cause : Reader α).Stable where
  ok input more value rest read := by cases read
  error input more cause read _ := by
    cases read
    rfl

/-- Where the input has ended, any reader may go on. -/
theorem stableTo_of_end (longer : Reader α) : (fail .unexpectedEnd : Reader α).StableTo longer where
  ok input more value rest read := by cases read
  error input more cause read other := by
    cases read
    contradiction

theorem StableTo.bind (first : reader.StableTo longer)
    (second : ∀ value, (next value).StableTo (nextLonger value)) :
    (reader >>= next).StableTo (longer >>= nextLonger) := by
  constructor
  · intro input more result rest read
    obtain ⟨value, later, here, there⟩ := (bind_eq_ok_iff ..).mp read
    exact (bind_eq_ok_iff ..).mpr ⟨value, later ++ more, first.ok input more value later here,
      (second value).ok later more result rest there⟩
  · intro input more cause read other
    rw [bind_apply] at read ⊢
    cases here : reader input with
    | error earlier =>
      rw [here] at read
      obtain rfl : earlier = cause := Except.error.inj read
      rw [first.error input more earlier here other]
      rfl
    | ok taken =>
      rw [here] at read
      rw [first.ok input more taken.1 taken.2 here]
      exact (second taken.1).error taken.2 more cause read other

theorem StableTo.map (stable : reader.StableTo longer) (f : α → β) :
    (do return f (← reader) : Reader β).StableTo (do return f (← longer)) :=
  stable.bind fun _ ↦ stable_pure _

theorem StableTo.ite {test : Prop} [Decidable test] {other otherLonger : Reader α}
    (yes : reader.StableTo longer) (no : other.StableTo otherLonger) :
    (if test then reader else other).StableTo (if test then longer else otherLonger) := by
  by_cases holds : test
  · rwa [if_pos holds, if_pos holds]
  · rwa [if_neg holds, if_neg holds]

theorem stable_byte : byte.Stable where
  ok input more value rest read := by
    cases input with
    | nil => cases read
    | cons first later =>
      cases read
      rfl
  error input more cause read other := by
    cases input with
    | nil =>
      cases read
      contradiction
    | cons => cases read

theorem stable_take (count : Nat) : (take count).Stable where
  ok input more value rest read := by
    unfold take at read ⊢
    split at read
    · cases read
    · next enough =>
      cases read
      have long : count ≤ input.length := Nat.le_of_not_lt enough
      rw [if_neg (by rw [List.length_append]; omega), List.take_append_of_le_length long,
        List.drop_append_of_le_length long]
  error input more cause read other := by
    unfold take at read
    split at read
    · cases read
      contradiction
    · cases read

theorem StableTo.many (item : reader.StableTo longer) (count : Nat) :
    (many reader count).StableTo (many longer count) := by
  induction count with
  | zero => exact stable_pure []
  | succ count ih => exact item.bind fun first ↦ ih.map (first :: ·)

/-! ## Decoding -/

variable {input bytes : Bytes} {result : α}

/-- An accepted input that is cut off ends too early. -/
theorem Stable.decode_of_cut (stable : reader.Stable) (accepted : reader.decode input = .ok result)
    (cut : bytes <+: input) (shorter : bytes ≠ input) :
    reader.decode bytes = .error .unexpectedEnd := by
  obtain ⟨more, rfl⟩ := cut
  have more_ne_nil : more ≠ [] := by
    rintro rfl
    exact shorter (List.append_nil bytes).symm
  have all := (decode_eq_ok_iff ..).mp accepted
  cases read : reader bytes with
  | ok taken =>
    have longer := stable.ok bytes more taken.1 taken.2 read
    rw [all] at longer
    have left : [] = taken.2 ++ more := congrArg Prod.snd (Except.ok.inj longer)
    exact absurd (List.append_eq_nil_iff.mp left.symm).2 more_ne_nil
  | error cause =>
    by_cases early : cause = .unexpectedEnd
    · rw [decode, read, early]
      rfl
    · rw [stable.error bytes more cause read early] at all
      cases all

/-- An accepted input that is added to leaves what was added over. -/
theorem Stable.decode_append (stable : reader.Stable) (accepted : reader.decode input = .ok result)
    {more : Bytes} (added : more ≠ []) :
    reader.decode (input ++ more) = .error .trailingBytes := by
  have all := (decode_eq_ok_iff ..).mp accepted
  rw [decode, stable.ok input more result [] all]
  cases more with
  | nil => contradiction
  | cons => rfl

end Reader

/-! ## Formats -/

open Reader

theorem stable_readNumber : readNumber.Stable := by
  refine StableTo.bind stable_byte fun first ↦ ?_
  have marked (count : Nat) : (do return ofLittleEndian (← take count) : Reader Nat).Stable :=
    (stable_take count).map ofLittleEndian
  exact .ite (stable_pure _) (.ite (marked 2) (.ite (marked 4) (.ite (marked 8)
    (.ite (stable_fail _) (stable_fail _)))))

namespace Format

theorem stable_word32 : word32.read.Stable :=
  StableTo.bind stable_readNumber fun _ ↦ .ite (stable_pure _) (stable_fail _)

theorem stable_word64 : word64.read.Stable :=
  StableTo.map stable_readNumber _

theorem stable_signed32 : signed32.read.Stable :=
  StableTo.bind stable_readNumber fun _ ↦ .ite (stable_pure _) (stable_fail _)

theorem stable_signed64 : signed64.read.Stable :=
  StableTo.map stable_readNumber _

theorem stable_bool : bool.read.Stable :=
  StableTo.bind stable_byte fun _ ↦ .ite (stable_pure _) (.ite (stable_pure _) (stable_fail _))

theorem stable_readVariant (count : Nat) : (readVariant count).Stable :=
  StableTo.bind stable_word32 fun _ ↦ .ite (stable_pure _) (stable_fail _)

theorem stable_oneOf [DecidableEq α] (values : List α) : (oneOf values).read.Stable := by
  refine (stable_readVariant _).bind fun index ↦ ?_
  split
  · exact stable_pure _
  · exact stable_fail _

variable {first : Format α} {second : Format β}

theorem stable_pair (left : first.read.Stable) (right : second.read.Stable) :
    (first.pair second).read.Stable :=
  left.bind fun _ ↦ right.map _

theorem stable_list (item : first.read.Stable) : first.list.read.Stable :=
  StableTo.bind stable_readNumber fun count ↦ item.many count

theorem stable_convert (stable : first.read.Stable) (make : α → β) (parts : β → α) :
    (first.convert make parts).read.Stable :=
  stable.map make

theorem stable_wordMap {width : Nat} {key : Format (BitVec width)} (keys : key.read.Stable)
    (values : first.read.Stable) : (wordMap key first).read.Stable :=
  stable_convert (stable_list (stable_pair keys values)) _ _

end Format

/-! ## Trees -/

theorem stable_reserveParts (room count : Nat) : (reserveParts room count).Stable := by
  unfold reserveParts
  exact .ite (stable_fail _) (.ite (stable_fail _) (stable_pure _))

open Format in
/-- More fuel changes nothing that is settled: without fuel the input counts as ended. -/
theorem stableTo_readTree (room : Nat) {fuel more : Nat} (less : fuel ≤ more) :
    (readTree room fuel).StableTo (readTree room more) := by
  induction fuel generalizing more with
  | zero => exact stableTo_of_end _
  | succ fuel ih =>
    obtain ⟨more, rfl⟩ : ∃ rest, more = rest + 1 := ⟨more - 1, by omega⟩
    have child := ih (Nat.le_of_succ_le_succ less)
    have ctype : ctype.read.Stable := stable_oneOf _
    rw [readTree, readTree]
    refine (stable_readVariant 8).bind fun kind ↦ ?_
    split
    · exact stable_word32.bind fun id ↦ ctype.bind fun ty ↦ stable_signed64.map _
    · exact ctype.bind fun ty ↦ stable_signed64.map _
    · exact (stable_oneOf unaryOps).bind fun op ↦ child.bind fun e ↦ ctype.bind fun ty ↦
        stable_signed64.map _
    · exact (stable_oneOf binaryOps).bind fun op ↦ child.bind fun l ↦ child.bind fun r ↦
        ctype.bind fun ty ↦ stable_signed64.map _
    · exact (stable_oneOf compareOps).bind fun op ↦ child.bind fun l ↦ child.bind fun r ↦
        ctype.bind fun ty ↦ stable_signed64.map _
    · exact (stable_oneOf pointerOps).bind fun op ↦ child.bind fun l ↦ child.bind fun r ↦
        stable_word64.bind fun size ↦ stable_signed64.map _
    · exact child.bind fun e ↦ stable_word32.bind fun offset ↦ stable_word32.bind fun bytes ↦
        stable_signed64.map _
    · exact ctype.bind fun ty ↦ stable_word32.bind fun size ↦ stable_readNumber.bind fun count ↦
        (stable_reserveParts room count).bind fun _ ↦
          ((stable_word32.bind fun offset ↦ child.map _).many count).bind fun parts ↦
            stable_signed64.map _

theorem stable_tree (room : Nat) : (Format.tree room).read.Stable := by
  have less (input more : Bytes) : input.length ≤ (input ++ more).length := by
    rw [List.length_append]
    exact Nat.le_add_right _ _
  constructor
  · intro input more
    exact (stableTo_readTree room (less input more)).ok input more
  · intro input more
    exact (stableTo_readTree room (less input more)).error input more

end Codec

/-! ## Records -/

open Codec Codec.Format

theorem Constraint.stable_format (room : Nat) : (Constraint.format room).read.Stable :=
  stable_convert (stable_pair stable_word64 (stable_pair (stable_tree room) stable_bool)) _ _

theorem Memory.stable_format (room : Nat) : (Memory.format room).read.Stable :=
  stable_convert (stable_wordMap stable_word64 (stable_tree room)) _ _

theorem Record.stable_format (room : Nat) : (Record.format room).read.Stable := by
  have path : (Path.format room).read.Stable :=
    stable_convert (stable_pair (stable_list stable_signed32)
      (stable_list (Constraint.stable_format room))) _ _
  have vars : (wordMap word32 ctype).read.Stable := stable_wordMap stable_word32 (stable_oneOf _)
  exact stable_convert (stable_pair (stable_list stable_signed64) (stable_pair vars
    (stable_pair path (Memory.stable_format room)))) _ _

namespace Record

variable {room : Nat} {record : Record}

/-- The bytes of a record are accepted as a whole only: every cut leaves too few, and any addition
too many.  So no record begins with the bytes of another one. -/
theorem deserialize_whole (fits : record.Fits room) :
    (∀ bytes, bytes <+: record.serialize → bytes ≠ record.serialize →
      deserializeIn room bytes = .error .unexpectedEnd) ∧
      (∀ more, more ≠ [] →
        deserializeIn room (record.serialize ++ more) = .error .trailingBytes) ∧
      ∀ other : Record, other.Fits room → record.serialize <+: other.serialize →
        record = other := by
  have stable := stable_format room
  refine ⟨fun bytes cut shorter ↦ ?_, fun more added ↦ ?_, fun other otherFits begins ↦ ?_⟩
  · exact stable.decode_of_cut (deserializeIn_serialize fits) cut shorter
  · exact stable.decode_append (deserializeIn_serialize fits) added
  · have own := deserializeIn_serialize fits
    have others := deserializeIn_serialize otherFits
    by_cases same : record.serialize = other.serialize
    · rw [same, others] at own
      exact (Except.ok.inj own).symm
    · have early : deserializeIn room record.serialize = .error .unexpectedEnd :=
        stable.decode_of_cut others begins same
      rw [own] at early
      contradiction

/-- A branch on an input, of which two bytes are bound. -/
def measuredRecord : Record where
  inputs := [300]
  vars := .ofList [(0, .int)]
  path :=
    { branches := [7, 9]
      constraints := [⟨1, .compare .sgt (.input 0 .int 300) (.const .int 10) .int 1, true⟩] }
  memory := ⟨.ofList [(4096, .slice (.input 0 .int 300) 1 2 1)]⟩

theorem measuredRecord_fits : measuredRecord.Fits 0 where
  inputs := by decide
  branches := by decide
  constraints := by decide
  conditions constraint member := by
    obtain rfl := List.mem_singleton.mp member
    refine (Expr.everywhere_compare ..).mpr ⟨trivial, ?_, ?_⟩
    · exact (Expr.everywhere_leaf rfl).mpr trivial
    · exact (Expr.everywhere_leaf rfl).mpr trivial
  memory := by
    refine ⟨by decide, fun start e found ↦ ?_⟩
    have member := (WordMap.mem_entries_iff _ start e).mpr found
    obtain ⟨-, rfl⟩ := Prod.mk.inj (List.mem_singleton.mp member)
    exact (Expr.everywhere_slice ..).mpr ⟨trivial, (Expr.everywhere_leaf rfl).mpr trivial⟩

theorem deserialize_whole_measured :
    measuredRecord.Fits 0 ∧ measuredRecord.serialize.length = 40 ∧
      deserializeIn 0 (measuredRecord.serialize.take 19) = .error .unexpectedEnd ∧
      deserializeIn 0 (measuredRecord.serialize ++ [0]) = .error .trailingBytes := by
  have length : measuredRecord.serialize.length = 40 := by decide
  obtain ⟨cut, added, -⟩ := deserialize_whole measuredRecord_fits
  refine ⟨measuredRecord_fits, length, cut _ (List.take_prefix 19 _) fun same ↦ ?_,
    added [0] (by simp)⟩
  have shorter := congrArg List.length same
  rw [List.length_take, length] at shorter
  contradiction

end Record

end Concolic
