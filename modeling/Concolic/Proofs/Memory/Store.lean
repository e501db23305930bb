import Concolic.Proofs.Expr.Parts
import Concolic.Proofs.Memory.Clear

/-!
# Storing operands

A store that fits below the last address never fails.  Afterwards the bytes of the range have the
origins that the operand gives them, those under a part of an aggregate or under a scalar; all
other bytes keep theirs.
-/

namespace Concolic

/-- The origin of a byte under one of the parts. -/
def partOrigin? (parts : List (BitVec 32 × Expr)) (index : Nat) : Option Origin :=
  (parts.find? fun part ↦ decide (PartCovers part index)).map
    fun part ↦ part.2.origin (index - part.1.toNat)

theorem partOrigin?_eq_none_iff (parts : List (BitVec 32 × Expr)) (index : Nat) :
    partOrigin? parts index = none ↔ ∀ part ∈ parts, ¬PartCovers part index := by
  simp [partOrigin?]

theorem partOrigin?_of_covers {size : Nat} {parts : List (BitVec 32 × Expr)}
    (fit : PartsFit size parts) {part : BitVec 32 × Expr} (member : part ∈ parts) {index : Nat}
    (covers : PartCovers part index) :
    partOrigin? parts index = some (part.2.origin (index - part.1.toNat)) := by
  cases found : parts.find? fun part ↦ decide (PartCovers part index) with
  | none => simpa [covers] using List.find?_eq_none.mp found part member
  | some other =>
    have there : PartCovers other index := by simpa using List.find?_some found
    have same := fit.eq_of_covers member (List.mem_of_find?_eq_some found) covers there
    rw [partOrigin?, found, same]
    rfl

theorem exists_of_partOrigin? {parts : List (BitVec 32 × Expr)} {index : Nat} {origin : Origin}
    (found : partOrigin? parts index = some origin) :
    ∃ part ∈ parts, PartCovers part index ∧ origin = part.2.origin (index - part.1.toNat) := by
  obtain ⟨part, here, rfl⟩ := Option.map_eq_some_iff.mp found
  exact ⟨part, List.mem_of_find?_eq_some here, by simpa using List.find?_some here, rfl⟩

namespace Operand

/-- The origin that storing the operand gives to its byte `index`. -/
def origin? (operand : Operand) (index : Nat) : Option Origin :=
  match operand with
  | .concrete _ => none
  | .symbolic e =>
    if e.isConcrete then none
    else
      match e with
      | .assemble .struct _ parts _ => partOrigin? parts index
      | e => some (e.origin index)

/-- Operands that evaluation produces: converted values, scalars of the size of their type, and
aggregates whose parts fit.  All expressions in them have the property. -/
inductive Formed (P : Expr → Prop) : Operand → Prop where
  | concrete {typed : TypedValue} (normal : typed.ty.normalize typed.value = typed.value) :
      Formed P (.concrete typed)
  | scalar {e : Expr} (flat : e.IsFlat) (scalar : e.ty ≠ .struct) (sized : e.bytes = e.ty.size)
      (holds : P e) : Formed P (.symbolic e)
  | region {size : BitVec 32} {parts : List (BitVec 32 × Expr)} {value : Value}
      (fit : PartsFit size.toNat parts) (flat : ∀ part ∈ parts, part.2.IsFlat)
      (holds : ∀ part ∈ parts, P part.2) :
      Formed P (.symbolic (.assemble .struct size parts value))

theorem Formed.mono {P Q : Expr → Prop} {operand : Operand} (formed : Formed P operand)
    (weaker : ∀ e, P e → Q e) : Formed Q operand := by
  cases formed with
  | concrete normal => exact .concrete normal
  | scalar flat scalar sized holds => exact .scalar flat scalar sized (weaker _ holds)
  | region fit flat holds => exact .region fit flat fun part member ↦ weaker _ (holds part member)

end Operand

namespace Memory

variable {cells : Cells} {address : Address}

/-- What inserting the parts of a region gives the byte at an address. -/
def placed? (address : Address) (parts : List (BitVec 32 × Expr)) (byte : Nat) : Option Origin :=
  if address.toNat ≤ byte then partOrigin? parts (byte - address.toNat) else none

section Head

variable {part : BitVec 32 × Expr} {rest : List (BitVec 32 × Expr)} {size byte : Nat}
  (inside : address.toNat + size < 2 ^ 64) (fit : PartsFit size (part :: rest))

include inside fit

theorem toNat_place :
    (address + part.1.setWidth 64).toNat = address.toNat + part.1.toNat := by
  have ends := fit.inside part (by simp)
  exact Address.toNat_add_setWidth (by omega)

theorem spans_place_iff : Spans (address + part.1.setWidth 64) part.2 byte ↔
    address.toNat ≤ byte ∧ PartCovers part (byte - address.toNat) := by
  rw [Spans, PartCovers, toNat_place inside fit]
  omega

theorem placed?_of_spans (spans : Spans (address + part.1.setWidth 64) part.2 byte) :
    placed? address (part :: rest) byte =
      some (part.2.origin (byte - (address + part.1.setWidth 64).toNat)) := by
  obtain ⟨above, covers⟩ := (spans_place_iff inside fit).mp spans
  rw [placed?, if_pos above, partOrigin?_of_covers fit (by simp) covers, toNat_place inside fit,
    Nat.sub_sub]

theorem placed?_of_not_spans (apart : ¬Spans (address + part.1.setWidth 64) part.2 byte) :
    placed? address (part :: rest) byte = placed? address rest byte := by
  unfold placed?
  split
  · next above =>
    have uncovered : ¬PartCovers part (byte - address.toNat) := fun covers ↦
      apart ((spans_place_iff inside fit).mpr ⟨above, covers⟩)
    simp [partOrigin?, uncovered]
  · rfl

/-- The later parts stay off the first one. -/
theorem placed?_rest_of_spans (spans : Spans (address + part.1.setWidth 64) part.2 byte) :
    placed? address rest byte = none := by
  obtain ⟨above, covers⟩ := (spans_place_iff inside fit).mp spans
  rw [placed?, if_pos above, partOrigin?_eq_none_iff]
  intro other member
  have := fit.head_le member
  unfold PartCovers at covers ⊢
  omega

end Head

/-- Inserting the parts of a region where no byte is bound. -/
theorem scatter_spec {size : Nat} {parts : List (BitVec 32 × Expr)} (fit : PartsFit size parts)
    (flat : ∀ part ∈ parts, part.2.IsFlat) (inside : address.toNat + size < 2 ^ 64)
    (layout : Layout cells)
    (free : ∀ byte, placed? address parts byte ≠ none → cells.origin? byte = none) :
    Layout (scatter cells address parts) ∧
      (∀ byte, Cells.origin? (scatter cells address parts) byte =
        (placed? address parts byte).or (cells.origin? byte)) ∧
      ∀ P, AllCells P cells → (∀ part ∈ parts, P part.2) →
        AllCells P (scatter cells address parts) := by
  induction parts generalizing cells with
  | nil =>
    refine ⟨layout, fun byte ↦ ?_, fun P all _ ↦ all⟩
    simp [placed?, partOrigin?, scatter]
  | cons part rest ih =>
    have nonempty : 0 < part.2.bytes := fit.nonempty part (by simp)
    have ends : part.1.toNat + part.2.bytes ≤ size := fit.inside part (by simp)
    have flatPart : part.2.IsFlat := flat part (by simp)
    let place := address + part.1.setWidth 64
    have fits : Layout.Fits place part.2 := by
      refine ⟨flatPart, nonempty, ?_⟩
      rw [toNat_place inside fit]
      omega
    have unbound : Layout.Free cells place part.2 := fun byte spans ↦
      free byte (by rw [placed?_of_spans inside fit spans]; simp)
    obtain ⟨layoutAll, origins, all⟩ := ih fit.tail (fun other member ↦ flat other (by simp [member]))
      (layout.insert fits unbound) fun byte placed ↦ by
        have apart : ¬Spans place part.2 byte := fun spans ↦
          placed (placed?_rest_of_spans inside fit spans)
        rw [layout.origin?_insert fits unbound, if_neg apart]
        exact free byte (by rwa [placed?_of_not_spans inside fit apart])
    refine ⟨layoutAll, fun byte ↦ ?_, fun P old parts ↦ ?_⟩
    · show Cells.origin? (scatter (cells.insert place part.2) address rest) byte = _
      rw [origins, layout.origin?_insert fits unbound]
      by_cases spans : Spans place part.2 byte
      · rw [placed?_rest_of_spans inside fit spans, placed?_of_spans inside fit spans,
          if_pos spans]
        rfl
      · rw [placed?_of_not_spans inside fit spans, if_neg spans]
    · obtain ⟨here, later⟩ := List.forall_mem_cons.mp parts
      exact all P (old.insert here) later

/-- What a store does to memory. -/
structure Stored (address : Address) (operand : Operand) (cells after : Cells) : Prop where
  layout : Layout after
  origin : ∀ byte, after.origin? byte =
    if InRange address.toNat (address.toNat + operand.bytes) byte then
      operand.origin? (byte - address.toNat)
    else cells.origin? byte

/-- Binding a scalar to a range that was cleared. -/
theorem insert_spec {after : Cells} {e : Expr} (fits : Layout.Fits address e)
    (cleared : Cleared address.toNat (address.toNat + e.bytes) cells after) :
    Layout (after.insert address e) ∧
      ∀ byte, Cells.origin? (after.insert address e) byte =
        if InRange address.toNat (address.toNat + e.bytes) byte then
          some (e.origin (byte - address.toNat))
        else cells.origin? byte := by
  have free : Layout.Free after address e := fun byte spans ↦ cleared.freed byte spans
  refine ⟨cleared.layout.insert fits free, fun byte ↦ ?_⟩
  rw [cleared.layout.origin?_insert fits free]
  have same : Spans address e byte ↔
      InRange address.toNat (address.toNat + e.bytes) byte := Iff.rfl
  by_cases spans : Spans address e byte
  · rw [if_pos spans, if_pos (same.mp spans)]
  · rw [if_neg spans, if_neg (mt same.mpr spans), cleared.kept byte spans]

theorem Cleared.stored {after : Cells} {operand : Operand} {length : Nat}
    (cleared : Cleared address.toNat (address.toNat + length) cells after)
    (size : operand.bytes = length) (untracked : ∀ index, operand.origin? index = none) :
    Stored address operand cells after := by
  refine ⟨cleared.layout, fun byte ↦ ?_⟩
  rw [size, untracked]
  split
  · next range => exact cleared.freed byte range
  · next outside => exact cleared.kept byte outside

theorem origin?_of_isConcrete {e : Expr} (concrete : e.isConcrete = true) (index : Nat) :
    Operand.origin? (.symbolic e) index = none :=
  if_pos concrete

theorem origin?_scalar {e : Expr} (tracked : e.isConcrete = false) (scalar : e.ty ≠ .struct)
    (index : Nat) : Operand.origin? (.symbolic e) index = some (e.origin index) := by
  simp only [Operand.origin?, tracked]
  cases e with
  | assemble ty size parts value =>
    cases ty with
    | struct => exact absurd rfl scalar
    | _ => rfl
  | _ => rfl

/-- The parts of a region stay inside its range. -/
theorem inRange_of_placed {size : Nat} {parts : List (BitVec 32 × Expr)} {byte : Nat}
    (fit : PartsFit size parts) (placed : placed? address parts byte ≠ none) :
    InRange address.toNat (address.toNat + size) byte := by
  unfold placed? at placed
  split at placed
  · next above =>
    obtain ⟨origin, found⟩ := Option.ne_none_iff_exists'.mp placed
    obtain ⟨part, member, covers, -⟩ := exists_of_partOrigin? found
    have ends := fit.inside part member
    unfold PartCovers at covers
    unfold InRange
    omega
  · contradiction

section Specs

variable {P : Expr → Prop} {memory : Memory} (layout : Layout memory.cells) (closed : CutClosed P)

include layout closed

/-- An expression without inputs only clears its range. -/
theorem store_isConcrete {e : Expr} (concrete : e.isConcrete = true) (address : Address) :
    ∃ after, memory.store address (.symbolic e) = .ok after ∧
      Stored address (.symbolic e) memory.cells after.cells ∧
      (AllCells P memory.cells → AllCells P after.cells) := by
  obtain ⟨after, ran, cleared⟩ := concretize_spec layout address e.bytes
  refine ⟨after, ?_, cleared.stored rfl (origin?_of_isConcrete concrete), cleared.all P closed⟩
  rw [store, if_pos concrete, ran]

/-- An expression that is bound as a whole takes the range that it clears. -/
theorem store_whole {e : Expr} (tracked : e.isConcrete = false) (fits : Layout.Fits address e)
    (holds : P e) (origins : ∀ index, Operand.origin? (.symbolic e) index = some (e.origin index))
    (whole : memory.write address e.ty e =
      (fun cleared ↦ ⟨cleared.cells.insert address e⟩) <$> memory.concretize address e.bytes) :
    ∃ after, memory.store address (.symbolic e) = .ok after ∧
      Stored address (.symbolic e) memory.cells after.cells ∧
      (AllCells P memory.cells → AllCells P after.cells) := by
  obtain ⟨after, ran, cleared⟩ := concretize_spec layout address e.bytes
  obtain ⟨layoutAfter, inserted⟩ := insert_spec fits cleared
  refine ⟨⟨after.cells.insert address e⟩, ?_, ⟨layoutAfter, fun byte ↦ ?_⟩,
    fun all ↦ (cleared.all P closed all).insert holds⟩
  · rw [store, tracked, if_neg Bool.false_ne_true, whole, ran]
    rfl
  · rw [inserted, origins]
    rfl

/-- A scalar is bound to the range that it clears. -/
theorem store_scalar {e : Expr} (tracked : e.isConcrete = false) (flat : e.IsFlat)
    (scalar : e.ty ≠ .struct) (sized : e.bytes = e.ty.size) (holds : P e)
    (inside : address.toNat + e.bytes < 2 ^ 64) :
    ∃ after, memory.store address (.symbolic e) = .ok after ∧
      Stored address (.symbolic e) memory.cells after.cells ∧
      (AllCells P memory.cells → AllCells P after.cells) := by
  have nonempty : 0 < e.bytes := sized ▸ CType.size_pos scalar
  have notStruct := (CType.isStruct_eq_false_iff e.ty).mpr scalar
  refine store_whole layout closed tracked ⟨flat, nonempty, inside⟩ holds
    (origin?_scalar tracked scalar) ?_
  rw [write, notStruct, if_neg Bool.false_ne_true, if_pos sized, ← sized]
  rfl

/-- The parts of a region are bound inside the range that it clears. -/
theorem store_region {size : BitVec 32} {parts : List (BitVec 32 × Expr)} {value : Value}
    (tracked : (Expr.assemble .struct size parts value).isConcrete = false)
    (fit : PartsFit size.toNat parts) (flat : ∀ part ∈ parts, part.2.IsFlat)
    (holds : ∀ part ∈ parts, P part.2) (inside : address.toNat + size.toNat < 2 ^ 64) :
    ∃ after, memory.store address (.symbolic (.assemble .struct size parts value)) = .ok after ∧
      Stored address (.symbolic (.assemble .struct size parts value)) memory.cells after.cells ∧
      (AllCells P memory.cells → AllCells P after.cells) := by
  have bytes : (Expr.assemble .struct size parts value).bytes = size.toNat := rfl
  obtain ⟨after, ran, cleared⟩ := concretize_spec layout address size.toNat
  obtain ⟨layoutAfter, origins, all⟩ := scatter_spec fit flat inside cleared.layout
    fun byte placed ↦ cleared.freed byte (inRange_of_placed fit placed)
  refine ⟨⟨scatter after.cells address parts⟩, ?_, ⟨layoutAfter, fun byte ↦ ?_⟩,
    fun old ↦ all P (cleared.all P closed old) holds⟩
  · rw [store, tracked, if_neg Bool.false_ne_true, write]
    simp only [Expr.ty, CType.isStruct, if_true, bytes, ran]
    rfl
  · rw [origins]
    show _ = if InRange address.toNat (address.toNat + size.toNat) byte then _ else _
    split
    · next range =>
      rw [cleared.freed byte range, Option.or_none, placed?, if_pos range.1]
      simp [Operand.origin?, tracked]
    · next outside =>
      have none : placed? address parts byte = none :=
        Classical.byContradiction fun placed ↦ outside (inRange_of_placed fit placed)
      rw [none, cleared.kept byte outside]
      rfl

/-- A store that fits never fails, gives the bytes of the range their origins and keeps all
others. -/
theorem store_spec {operand : Operand} (formed : operand.Formed P)
    (inside : address.toNat + operand.bytes < 2 ^ 64) :
    ∃ after, memory.store address operand = .ok after ∧
      Stored address operand memory.cells after.cells ∧
      (AllCells P memory.cells → AllCells P after.cells) := by
  cases formed with
  | @concrete typed normal =>
    obtain ⟨after, ran, cleared⟩ := concretize_spec layout address typed.bytes
    exact ⟨after, ran, cleared.stored rfl fun _ ↦ rfl, cleared.all P closed⟩
  | @scalar e flat scalar sized holds =>
    cases tracked : e.isConcrete with
    | true => exact store_isConcrete layout closed tracked address
    | false => exact store_scalar layout closed tracked flat scalar sized holds inside
  | @region size parts value fit flat holds =>
    cases tracked : (Expr.assemble .struct size parts value).isConcrete with
    | true => exact store_isConcrete layout closed tracked address
    | false => exact store_region layout closed tracked fit flat holds inside

theorem stored_of_store {operand : Operand} {after : Memory} (formed : operand.Formed P)
    (inside : address.toNat + operand.bytes < 2 ^ 64)
    (ran : memory.store address operand = .ok after) :
    Stored address operand memory.cells after.cells ∧
      (AllCells P memory.cells → AllCells P after.cells) := by
  obtain ⟨expected, stored, spec⟩ := store_spec layout closed formed inside
  have same : after = expected := Except.ok.inj (ran.symm.trans stored)
  rw [same]
  exact spec

omit layout closed in
/-- A new input is bound like an operand that is stored. -/
theorem write_eq_store {e : Expr} (memory : Memory) (tracked : e.isConcrete = false) :
    memory.write address e.ty e = memory.store address (.symbolic e) := by
  rw [store, tracked]
  rfl

theorem stored_of_write {e : Expr} {after : Memory} (formed : Operand.Formed P (.symbolic e))
    (inside : address.toNat + e.bytes < 2 ^ 64) (tracked : e.isConcrete = false)
    (ran : memory.write address e.ty e = .ok after) :
    Stored address (.symbolic e) memory.cells after.cells ∧
      (AllCells P memory.cells → AllCells P after.cells) :=
  stored_of_store layout closed formed inside ((write_eq_store memory tracked).symm.trans ran)

end Specs

end Memory

end Concolic
