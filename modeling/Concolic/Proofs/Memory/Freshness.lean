import Concolic.Proofs.Expr.WellFormed
import Concolic.Proofs.Memory.Checked

/-!
# Fresh bytes

A scalar read keeps the bindings whose recorded bytes in the range are the observed ones.  What it
makes of them has the type and the value that the program observed, and on other inputs its bytes
are those of the fresh bindings and, everywhere else, the observed ones.
-/

namespace Concolic

/-- Memory that can be read: bindings are ranges apart from each other, their values are converted,
and slices are cut within range from what is no slice and record its bytes. -/
structure Memory.Readable (memory : Memory) : Prop where
  ranges : Ranges memory.cells
  shallow : AllCells Expr.IsShallow memory.cells
  recorded : AllCells Expr.RecordsRoot memory.cells
  converted : AllCells Expr.IsConverted memory.cells

instance (memory : Memory) : Decidable memory.Readable :=
  decidable_of_iff
    (Ranges memory.cells ∧ AllCells Expr.IsShallow memory.cells ∧
      AllCells Expr.RecordsRoot memory.cells ∧ AllCells Expr.IsConverted memory.cells)
    ⟨fun ⟨ranges, shallow, recorded, converted⟩ ↦ ⟨ranges, shallow, recorded, converted⟩,
      fun ⟨ranges, shallow, recorded, converted⟩ ↦ ⟨ranges, shallow, recorded, converted⟩⟩

/-- The binding that holds a byte. -/
def Cells.covering? (cells : Cells) (byte : Nat) : Option (Address × Expr) :=
  cells.entries.find? fun cell ↦ decide (Spans cell.1 cell.2 byte)

/-- The bytes that an expression bound to `start` records inside the range are the observed ones. -/
def FreshAt (address : Address) (observed : TypedValue) (start : Address) (e : Expr) : Prop :=
  ∀ index < observed.bytes, Spans start e (address.toNat + index) →
    byteAt e.value (address.toNat + index - start.toNat) = byteAt observed.value index

instance (address : Address) (observed : TypedValue) (start : Address) (e : Expr) :
    Decidable (FreshAt address observed start e) :=
  inferInstanceAs (Decidable (∀ index < observed.bytes, _ → _))

/-- A binding that meets the range of a read and has not changed there. -/
structure Memory.Fresh (memory : Memory) (address : Address) (observed : TypedValue)
    (start : Address) (e : Expr) : Prop where
  bound : memory.get? start = some e
  meets : Meets address.toNat (address.toNat + observed.bytes) start e
  unchanged : FreshAt address observed start e

/-- Byte `index` of a read on other inputs: that of the covering binding where it is fresh, and the
observed one otherwise. -/
def Memory.expectedByte (memory : Memory) (address : Address) (observed : TypedValue)
    (inputs : List Value) (index : Nat) : BitVec 8 :=
  match Cells.covering? memory.cells (address.toNat + index) with
  | some (start, e) =>
    if FreshAt address observed start e then
      byteAt (e.evaluate inputs) (address.toNat + index - start.toNat)
    else byteAt observed.value index
  | none => byteAt observed.value index

theorem Cells.covering?_of_spans {cells : Cells} (ranges : Ranges cells) {start : Address}
    {e : Expr} {byte : Nat} (found : cells.get? start = some e) (spans : Spans start e byte) :
    cells.covering? byte = some (start, e) := by
  cases here : cells.covering? byte with
  | none =>
    have member := (cells.mem_entries_iff start e).mpr found
    exact absurd spans (by simpa using List.find?_eq_none.mp here (start, e) member)
  | some cell =>
    have present := (cells.mem_entries_iff cell.1 cell.2).mp (List.mem_of_find?_eq_some here)
    have covers : Spans cell.1 cell.2 byte := by simpa using List.find?_some here
    obtain ⟨rfl, rfl⟩ := ranges.eq_of_spans found present spans covers
    rfl

theorem Cells.covering?_eq_none {cells : Cells} {byte : Nat}
    (uncovered : ∀ start e, cells.get? start = some e → ¬Spans start e byte) :
    cells.covering? byte = none := by
  rw [covering?, List.find?_eq_none]
  intro cell member
  have present := (cells.mem_entries_iff cell.1 cell.2).mp member
  simpa using uncovered cell.1 cell.2 present

namespace Memory

variable {memory : Memory} {address start : Address} {e : Expr} {ty : CType} {value : Value}
  {parts : List (BitVec 32 × Expr)} {observed : TypedValue}

open Concolic.Expr

/-! ## Conversion of bytes -/

/-- The cast that a conversion applies takes over the bytes of the type. -/
theorem cast_eq_normalize (scalar : ty ≠ .struct) (signed : Bool)
    (fits : signed = true → ty ≠ .bool) (value : Value) :
    UnaryOp.apply (if signed then .signedCast else .unsignedCast) ty ty.bits value =
      ty.normalize (byteRange value 0 ty.size) := by
  cases signed with
  | false =>
    rw [byteRange_zero]
    rfl
  | true =>
    rw [CType.normalize_byteRange (fits rfl) scalar]
    exact CType.normalize_congr (fits rfl) scalar (setWidth_signExtend value (Nat.le_refl ty.bits))

theorem convert_cases (e : Expr) (ty : CType) :
    e.ty = ty ∧ convert e ty = e ∨
      convert e ty = .mkUnary (if ty.isSigned then .signedCast else .unsignedCast) e ty
        (UnaryOp.apply (if ty.isSigned then .signedCast else .unsignedCast) ty e.bits e.value) := by
  unfold convert
  split
  · next same => exact .inl ⟨same, rfl⟩
  · exact .inr rfl

theorem cast_of_bytes (scalar : ty ≠ .struct) (size : e.bytes = ty.size) (value : Value) :
    UnaryOp.apply (if ty.isSigned then .signedCast else .unsignedCast) ty e.bits value =
      ty.normalize (byteRange value 0 ty.size) := by
  have bits : e.bits = ty.bits := congrArg (8 * ·) size
  rw [bits]
  refine cast_eq_normalize scalar ty.isSigned (fun signed truth ↦ ?_) value
  rw [truth] at signed
  contradiction

theorem value_convert (scalar : ty ≠ .struct) (size : e.bytes = ty.size)
    (converted : e.IsConverted) :
    (convert e ty).value = ty.normalize (byteRange e.value 0 ty.size) := by
  rcases convert_cases e ty with ⟨rfl, same⟩ | cast
  · rw [same, CType.normalize_byteRange_self scalar converted]
  · rw [cast, cast_of_bytes scalar size]
    exact ty.normalize_normalize _

theorem evaluate_convert (scalar : ty ≠ .struct) (size : e.bytes = ty.size)
    (converted : e.IsConverted) (inputs : List Value) :
    (convert e ty).evaluate inputs = ty.normalize (byteRange (e.evaluate inputs) 0 ty.size) := by
  rcases convert_cases e ty with ⟨rfl, same⟩ | cast
  · rw [same, CType.normalize_byteRange_self scalar (converted.normalize_evaluate inputs)]
  · rw [cast]
    exact cast_of_bytes scalar size _

theorem isConsistent_convert (consistent : e.isConsistent = true) (ty : CType) :
    (convert e ty).isConsistent = true := by
  rcases convert_cases e ty with ⟨-, same⟩ | cast
  · rw [same, consistent]
  · rw [cast, mkUnary, isConsistent, consistent, Bool.and_true, beq_iff_eq]
    exact (UnaryOp.normalize_apply ..).symm

/-! ## Fresh parts -/

theorem isFresh_iff {value : Value} {part : BitVec 32 × Expr}
    (inWord : part.1.toNat + part.2.bytes ≤ 8) :
    isFresh value part = true ↔ ∀ index, PartCovers part index →
      byteAt part.2.value (index - part.1.toNat) = byteAt value index := by
  rw [isFresh, beq_iff_eq, recordedBytes, observedBytes, byteRange_eq_iff]
  unfold PartCovers
  constructor
  · intro agree index covers
    have byte := agree (index - part.1.toNat) (by omega)
    rwa [Nat.zero_add, Nat.add_sub_cancel' covers.1] at byte
  · intro agree index below
    have byte := agree (part.1.toNat + index) (by omega)
    rw [Nat.zero_add, ← byte, Nat.add_sub_cancel_left]

/-- Laying fresh parts over a value changes nothing. -/
theorem layParts_of_fresh {size : Nat} (narrow : size ≤ 8) (fit : PartsFit size parts)
    (fresh : ∀ part ∈ parts, isFresh value part = true) :
    layParts Expr.value parts value = value := by
  rw [eq_iff_byteAt]
  intro index inWord
  by_cases covered : ∃ part ∈ parts, PartCovers part index
  · obtain ⟨part, member, covers⟩ := covered
    have ends := fit.inside part member
    rw [byteAt_layParts_of_covers _ fit _ member inWord covers]
    exact (isFresh_iff (by omega)).mp (fresh part member) index covers
  · refine byteAt_layParts_of_not_covers _ _ inWord fun part member covers ↦ ?_
    exact covered ⟨part, member, covers⟩

/-- Parts that fit under a type leave a converted value with nothing above the type's bytes, where
that matters. -/
theorem normalize_layParts (scalar : ty ≠ .struct) (normal : ty.normalize value = value)
    (fit : PartsFit ty.size parts) (child : Expr → Value) :
    ty.normalize (layParts child parts value) =
      ty.normalize (byteRange (layParts child parts value) 0 ty.size) := by
  by_cases truth : ty = .bool
  · subst truth
    congr 1
    rw [eq_iff_byteAt]
    intro index inWord
    rw [byteAt_byteRange, Nat.zero_add]
    split
    · rfl
    · next above =>
      have apart : ∀ part ∈ parts, ¬PartCovers part index := by
        intro part member covers
        have ends := fit.inside part member
        unfold PartCovers at covers
        omega
      have size : CType.size .bool = 1 := rfl
      have high : byteAt (byteRange value 0 1) index = byteAt value index := by
        congr 1
        rw [← normal, CType.normalize_bool]
        split <;> decide
      rw [byteAt_layParts_of_not_covers _ _ inWord apart, ← high, byteAt_byteRange,
        if_neg (size ▸ above)]
  · exact (CType.normalize_byteRange truth scalar _).symm

/-- What a scalar read makes of fresh parts. -/
structure Combined (observed : TypedValue) (parts : List (BitVec 32 × Expr)) (e : Expr) :
    Prop where
  ty : e.ty = observed.ty
  bytes : e.bytes = observed.bytes
  value : e.value = observed.value
  evaluate : ∀ inputs, e.evaluate inputs = observed.ty.normalize
    (byteRange (layParts (evaluate inputs) parts observed.value) 0 observed.ty.size)
  consistent : (∀ part ∈ parts, part.2.isConsistent = true) → e.isConsistent = true

theorem combined_convert (scalar : observed.ty ≠ .struct)
    (normal : observed.ty.normalize observed.value = observed.value)
    (size : e.bytes = observed.ty.size) (converted : e.IsConverted)
    (fresh : isFresh observed.value (0, e) = true) :
    Combined observed [(0, e)] (convert e observed.ty) where
  ty := convert_ty e observed.ty
  bytes := by rw [convert_bytes size, bytes_of_scalar scalar]
  value := by
    have same : byteRange e.value 0 e.bytes = byteRange observed.value 0 e.bytes := by
      simpa [isFresh, recordedBytes, observedBytes] using fresh
    rw [value_convert scalar size converted, ← size, same, size,
      CType.normalize_byteRange_self scalar normal]
  evaluate inputs := by
    rw [evaluate_convert scalar size converted]
    congr 1
    rw [byteRange_eq_iff]
    intro index below
    have covers : PartCovers (0, e) index := ⟨Nat.zero_le index, by simp; omega⟩
    have fit : PartsFit observed.ty.size [(0, e)] :=
      ⟨List.pairwise_singleton _ _, by simpa [size] using CType.size_pos scalar, by simp [size]⟩
    rw [Nat.zero_add, byteAt_layParts_of_covers _ fit _ (List.mem_singleton.mpr rfl) (by omega)
      covers]
    rfl
  consistent all := isConsistent_convert (all (0, e) (List.mem_singleton.mpr rfl)) _

theorem combined_assemble (scalar : observed.ty ≠ .struct)
    (normal : observed.ty.normalize observed.value = observed.value)
    (fit : PartsFit observed.ty.size parts)
    (fresh : ∀ part ∈ parts, isFresh observed.value part = true) :
    Combined observed parts
      (.assemble observed.ty (.ofNat 32 observed.bytes) parts observed.value) where
  ty := rfl
  bytes := by
    rw [bytes_of_scalar scalar]
    exact size_ofNat observed.ty
  value := rfl
  evaluate inputs := by
    rw [evaluate_eq_nodeValue inputs rfl, nodeValue, (CType.isStruct_eq_false_iff _).mpr scalar,
      if_neg Bool.false_ne_true]
    exact normalize_layParts scalar normal fit _
  consistent all := by
    have consistent : arePartsConsistent parts = true := by
      rw [arePartsConsistent_eq_all, List.all_eq_true]
      exact all
    rw [isConsistent, consistent, Bool.and_true, beq_iff_eq, recomputed_eq_nodeValue, nodeValue,
      (CType.isStruct_eq_false_iff _).mpr scalar, if_neg Bool.false_ne_true,
      layParts_of_fresh observed.ty.size_le_eight fit fresh, normal]

/-- A scalar read gives the observed value if no part is fresh, and an expression of its type,
size and value otherwise. -/
theorem combine_spec (scalar : observed.ty ≠ .struct)
    (normal : observed.ty.normalize observed.value = observed.value)
    (fit : PartsFit observed.bytes parts) (converted : ∀ part ∈ parts, part.2.IsConverted)
    (fresh : ∀ part ∈ parts, isFresh observed.value part = true) :
    parts = [] ∧ combine observed parts = .concrete observed ∨
      parts ≠ [] ∧ ∃ e, combine observed parts = .symbolic e ∧ Combined observed parts e := by
  have size := bytes_of_scalar scalar
  rcases combine_cases scalar parts with plain | ⟨e, rfl, whole, result⟩ |
    ⟨some_parts, result⟩
  · exact .inl plain
  · have member : (0, e) ∈ [((0 : BitVec 32), e)] := List.mem_singleton.mpr rfl
    exact .inr ⟨List.cons_ne_nil _ _, _, result,
      combined_convert scalar normal (whole.trans size) (converted _ member) (fresh _ member)⟩
  · rw [mkAssemble_eq fit normal] at result
    exact .inr ⟨some_parts, _, result, combined_assemble scalar normal (size ▸ fit) fresh⟩

/-! ## What a read gives -/

section Clipped

variable {length index : Nat} (inside : index < length)
  (meets : Meets address.toNat (address.toNat + length) start e)
  (spans : Spans start e (address.toNat + index)) (narrow : length < 2 ^ 32)

include inside meets spans narrow

theorem byteAt_evaluate_clipped (shallow : e.IsShallow) (inputs : List Value) :
    byteAt ((clipped address length (start, e)).2.evaluate inputs)
        (index - (clipped address length (start, e)).1.toNat) =
      byteAt (e.evaluate inputs) (address.toNat + index - start.toNat) := by
  have offset := clipped_offset narrow meets
  unfold Spans at spans
  rw [offset]
  refine (byteAt_evaluate_cut inputs shallow (clipped_inside meets) (by omega)).trans ?_
  congr 1
  omega

theorem byteAt_value_clipped (shallow : e.IsShallow) (records : e.RecordsRoot) :
    byteAt (clipped address length (start, e)).2.value
        (index - (clipped address length (start, e)).1.toNat) =
      byteAt e.value (address.toNat + index - start.toNat) := by
  have offset := clipped_offset narrow meets
  unfold Spans at spans
  rw [offset]
  refine (byteAt_value_cut records shallow (clipped_inside meets) (by omega)).trans ?_
  congr 1
  omega

end Clipped

theorem isConsistent_cut (consistent : e.isConsistent = true) (records : e.RecordsRoot)
    (shallow : e.IsShallow) {offset bytes : Nat} (inside : offset + bytes ≤ e.bytes) :
    (e.cut offset bytes).isConsistent = true := by
  rw [isConsistent_iff_everywhere] at consistent ⊢
  refine everywhere_cut consistent fun part ↦ ?_
  have recorded := recordsRoot_cut records shallow inside
  rw [cut, if_neg part] at recorded
  exact Eq.symm recorded

variable (readable : memory.Readable) (scalar : observed.ty ≠ .struct)

/-- The parts of a range that have not changed. -/
def freshParts (memory : Memory) (address : Address) (observed : TypedValue) :
    List (BitVec 32 × Expr) :=
  (memory.partsIn address observed.bytes).filter (isFresh observed.value)

include scalar in
theorem loaded_eq_combine (memory : Memory) (address : Address) :
    memory.loaded address observed = combine observed (memory.freshParts address observed) := by
  rw [loaded, (CType.isStruct_eq_false_iff _).mpr scalar, if_neg Bool.false_ne_true, freshParts]

include scalar in
theorem bytes_le_eight : observed.bytes ≤ 8 := by
  rw [bytes_of_scalar scalar]
  exact observed.ty.size_le_eight

include readable scalar

theorem partsFit_freshParts (address : Address) :
    PartsFit observed.bytes (memory.freshParts address observed) := by
  have narrow := bytes_le_eight scalar
  exact (partsFit_partsIn readable.ranges address (by omega)).filter _

/-- A clipped part is fresh exactly where its binding is. -/
theorem isFresh_clipped_iff (found : memory.cells.get? start = some e)
    (meets : Meets address.toNat (address.toNat + observed.bytes) start e) :
    isFresh observed.value (clipped address observed.bytes (start, e)) = true ↔
      FreshAt address observed start e := by
  have narrow := bytes_le_eight scalar
  have shallow := readable.shallow start e found
  have records := readable.recorded start e found
  have offset := clipped_offset (by omega) meets
  have bytes := clipped_bytes meets
  have covers := covers_clipped_iff (show observed.bytes < 2 ^ 32 by omega) meets
  have ends : (clipped address observed.bytes (start, e)).1.toNat +
      (clipped address observed.bytes (start, e)).2.bytes ≤ 8 := by
    unfold Meets at meets
    omega
  rw [isFresh_iff ends]
  constructor
  · intro agree index inside spans
    rw [← byteAt_value_clipped inside meets spans (by omega) shallow records]
    exact agree index ((covers index).mpr ⟨inside, spans⟩)
  · intro agree index covered
    obtain ⟨inside, spans⟩ := (covers index).mp covered
    rw [byteAt_value_clipped inside meets spans (by omega) shallow records]
    exact agree index inside spans

theorem mem_freshParts_iff (part : BitVec 32 × Expr) :
    part ∈ memory.freshParts address observed ↔
      ∃ start e, memory.Fresh address observed start e ∧
        part = clipped address observed.bytes (start, e) := by
  have positive : observed.bytes ≠ 0 := by
    have := CType.size_pos scalar
    rw [bytes_of_scalar scalar]
    omega
  rw [freshParts, List.mem_filter, partsIn, if_neg positive, mem_clippedParts]
  constructor
  · rintro ⟨⟨start, e, found, meets, rfl⟩, fresh⟩
    exact ⟨start, e, ⟨found, meets, (isFresh_clipped_iff readable scalar found meets).mp fresh⟩, rfl⟩
  · rintro ⟨start, e, ⟨found, meets, unchanged⟩, rfl⟩
    exact ⟨⟨start, e, found, meets, rfl⟩,
      (isFresh_clipped_iff readable scalar found meets).mpr unchanged⟩

theorem freshParts_eq_nil_iff (address : Address) :
    memory.freshParts address observed = [] ↔
      ∀ start e, ¬memory.Fresh address observed start e := by
  rw [List.eq_nil_iff_forall_not_mem]
  constructor
  · exact fun none start e fresh ↦
      none _ ((mem_freshParts_iff readable scalar _).mpr ⟨start, e, fresh, rfl⟩)
  · intro none part member
    obtain ⟨start, e, fresh, -⟩ := (mem_freshParts_iff readable scalar part).mp member
    exact none start e fresh

/-- Laid over the observed value, the fresh parts give the expected bytes. -/
theorem byteAt_layParts_freshParts (inputs : List Value) {index : Nat}
    (inside : index < observed.bytes) :
    byteAt (layParts (evaluate inputs) (memory.freshParts address observed) observed.value) index =
      memory.expectedByte address observed inputs index := by
  have narrow := bytes_le_eight scalar
  have fit := partsFit_freshParts readable scalar address
  have covering (part : BitVec 32 × Expr) (member : part ∈ memory.freshParts address observed)
      (covers : PartCovers part index) : ∃ start e, memory.Fresh address observed start e ∧
        Spans start e (address.toNat + index) := by
    obtain ⟨start, e, fresh, rfl⟩ := (mem_freshParts_iff readable scalar part).mp member
    exact ⟨start, e, fresh, ((covers_clipped_iff (by omega) fresh.meets index).mp covers).2⟩
  unfold expectedByte
  by_cases covered : ∃ start e, memory.cells.get? start = some e ∧
      Spans start e (address.toNat + index)
  · obtain ⟨start, e, found, spans⟩ := covered
    rw [Cells.covering?_of_spans readable.ranges found spans]
    simp only
    split
    · next unchanged =>
      have meets : Meets address.toNat (address.toNat + observed.bytes) start e := by
        unfold Spans at spans
        unfold Meets
        omega
      have member : clipped address observed.bytes (start, e) ∈
          memory.freshParts address observed :=
        (mem_freshParts_iff readable scalar _).mpr ⟨start, e, ⟨found, meets, unchanged⟩, rfl⟩
      have covers := (covers_clipped_iff (by omega) meets index).mpr ⟨inside, spans⟩
      rw [byteAt_layParts_of_covers _ fit _ member (by omega) covers]
      exact byteAt_evaluate_clipped inside meets spans (by omega) (readable.shallow _ _ found) inputs
    · next stale =>
      refine byteAt_layParts_of_not_covers _ _ (by omega) fun part member covers ↦ stale ?_
      obtain ⟨other, f, fresh, spansOther⟩ := covering part member covers
      obtain ⟨rfl, rfl⟩ := readable.ranges.eq_of_spans found fresh.bound spans spansOther
      exact fresh.unchanged
  · rw [Cells.covering?_eq_none fun start e found spans ↦ covered ⟨start, e, found, spans⟩]
    refine byteAt_layParts_of_not_covers _ _ (by omega) fun part member covers ↦ covered ?_
    obtain ⟨start, e, fresh, spans⟩ := covering part member covers
    exact ⟨start, e, fresh.bound, spans⟩

/-- What a scalar is loaded as. -/
theorem loaded_spec (normal : observed.ty.normalize observed.value = observed.value)
    (address : Address) :
    (∀ start e, ¬memory.Fresh address observed start e) ∧
        memory.loaded address observed = .concrete observed ∨
      (∃ start e, memory.Fresh address observed start e) ∧
        ∃ e, memory.loaded address observed = .symbolic e ∧
          Combined observed (memory.freshParts address observed) e := by
  have parts (part : BitVec 32 × Expr) (member : part ∈ memory.freshParts address observed) :
      part.2.IsConverted ∧ isFresh observed.value part = true := by
    obtain ⟨start, e, fresh, rfl⟩ := (mem_freshParts_iff readable scalar part).mp member
    exact ⟨(readable.converted start e fresh.bound).cut (clipped_inside fresh.meets),
      (isFresh_clipped_iff readable scalar fresh.bound fresh.meets).mpr fresh.unchanged⟩
  rw [loaded_eq_combine scalar]
  rcases combine_spec scalar normal (partsFit_freshParts readable scalar address)
    (fun part member ↦ (parts part member).1) (fun part member ↦ (parts part member).2) with
    ⟨none, plain⟩ | ⟨some_parts, e, symbolic, combined⟩
  · exact .inl ⟨(freshParts_eq_nil_iff readable scalar address).mp none, plain⟩
  · obtain ⟨part, member⟩ := List.exists_mem_of_ne_nil _ some_parts
    obtain ⟨start, binding, fresh, -⟩ := (mem_freshParts_iff readable scalar part).mp member
    exact .inr ⟨⟨start, binding, fresh⟩, e, symbolic, combined⟩

omit readable scalar

/-- Two inputs side by side, the second bound as a slice that is all of it. -/
def sideBySide : Memory :=
  ⟨.ofList [(0x1000, .mkInput 0 .int 0x01020304), (0x1004, (Expr.mkInput 1 .short 9).slice 0 2 9)]⟩

end Memory

end Concolic
