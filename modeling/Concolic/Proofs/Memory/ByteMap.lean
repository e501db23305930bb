import Concolic.Proofs.Memory.Checked

/-!
# Memory as a map from bytes

Seen through its bytes, a memory with a layout is a partial map from places to origins.  Clearing
takes a range out of the map and storing puts the bytes of the operand there.  Neither fails where
the range does not wrap around, and both leave a layout behind, so that nothing but the map matters
to what follows.
-/

namespace Concolic

/-- What a byte comes from, where it depends on inputs. -/
abbrev ByteMap := Nat → Option Origin

/-- The map with other bytes in the `length` places from `address` on. -/
def ByteMap.overlay (map : ByteMap) (address : Address) (length : Nat) (bytes : ByteMap) :
    ByteMap :=
  fun byte ↦
    if InRange address.toNat (address.toNat + length) byte then bytes (byte - address.toNat)
    else map byte

/-- Operands that leave a layout where they are bound: those that depend on no input, flat slices,
scalars of the size of their type, and aggregates whose parts fit. -/
inductive Operand.Storable : Operand → Prop where
  | concrete (typed : TypedValue) : Storable (.concrete typed)
  | constant {e : Expr} (constant : e.isConcrete = true) : Storable (.symbolic e)
  | slice {e : Expr} (slice : e.isSlice = true) (flat : e.IsFlat) (nonempty : 0 < e.bytes) :
      Storable (.symbolic e)
  | scalar {e : Expr} (whole : e.isSlice = false) (scalar : e.ty ≠ .struct)
      (sized : e.bytes = e.ty.size) : Storable (.symbolic e)
  | region {size : BitVec 32} {parts : List (BitVec 32 × Expr)} {value : Value}
      (fit : PartsFit size.toNat parts) (flat : ∀ part ∈ parts, part.2.IsFlat) :
      Storable (.symbolic (.assemble .struct size parts value))

/-- A slice that has a scalar type has its size. -/
theorem Expr.bytes_slice {e : Expr} (slice : e.isSlice = true) (scalar : e.ty ≠ .struct) :
    e.bytes = e.ty.size := by
  cases e with
  | slice whole offset bytes value =>
    cases found : CType.ofSize? bytes.toNat false with
    | none => simp [Expr.ty, found] at scalar
    | some ty => simp [Expr.ty, Expr.bytes, found, (CType.size_of_ofSize? found).1]
  | _ => contradiction

namespace Memory

def view (memory : Memory) : ByteMap :=
  Cells.origin? memory.cells

section Store

variable {memory : Memory} {address : Address}

theorem Stored.view_eq {operand : Operand} {after : Memory}
    (stored : Stored address operand memory.cells after.cells) :
    after.view = memory.view.overlay address operand.bytes operand.origin? :=
  funext stored.origin

theorem Cleared.view_eq {length : Nat} {after : Memory}
    (cleared : Cleared address.toNat (address.toNat + length) memory.cells after.cells) :
    after.view = memory.view.overlay address length fun _ ↦ none := by
  funext byte
  unfold ByteMap.overlay
  split
  · next range => exact cleared.freed byte range
  · next outside => exact cleared.kept byte outside

theorem origin?_slice {e : Expr} (tracked : e.isConcrete = false) (slice : e.isSlice = true)
    (index : Nat) : Operand.origin? (.symbolic e) index = some (e.origin index) := by
  cases e with
  | slice => simp [Operand.origin?, tracked]
  | _ => contradiction

variable {P : Expr → Prop} (layout : Layout memory.cells) (closed : CutClosed P)

include layout closed

/-- A slice is bound as it is, also one of a size that no scalar has. -/
theorem store_slice {e : Expr} (tracked : e.isConcrete = false) (slice : e.isSlice = true)
    (fits : Layout.Fits address e) (holds : P e) :
    ∃ after, memory.store address (.symbolic e) = .ok after ∧
      Stored address (.symbolic e) memory.cells after.cells ∧
      (AllCells P memory.cells → AllCells P after.cells) := by
  by_cases scalar : e.ty = .struct
  · refine store_whole layout closed tracked fits holds (origin?_slice tracked slice) ?_
    cases e with
    | slice =>
      rw [write, scalar]
      rfl
    | _ => contradiction
  · exact store_scalar layout closed tracked fits.flat scalar (Expr.bytes_slice slice scalar) holds
      fits.inside

omit closed in
theorem store_storable {operand : Operand} (storable : operand.Storable)
    (inside : address.toNat + operand.bytes < 2 ^ 64) :
    ∃ after, memory.store address operand = .ok after ∧
      Stored address operand memory.cells after.cells := by
  -- nothing is asked of the expressions in memory
  have closed : CutClosed fun _ ↦ True := fun _ _ _ _ _ _ _ ↦ trivial
  have spec : ∃ after, memory.store address operand = .ok after ∧
      Stored address operand memory.cells after.cells ∧
      (AllCells (fun _ ↦ True) memory.cells → AllCells (fun _ ↦ True) after.cells) := by
    cases storable with
    | concrete typed =>
      obtain ⟨after, ran, cleared⟩ := concretize_spec layout address typed.bytes
      exact ⟨after, ran, cleared.stored rfl fun _ ↦ rfl, cleared.all _ closed⟩
    | constant constant => exact store_isConcrete layout closed constant address
    | @slice e slice flat nonempty =>
      cases tracked : e.isConcrete with
      | true => exact store_isConcrete layout closed tracked address
      | false => exact store_slice layout closed tracked slice ⟨flat, nonempty, inside⟩ trivial
    | @scalar e whole scalar sized =>
      cases tracked : e.isConcrete with
      | true => exact store_isConcrete layout closed tracked address
      | false =>
        have flat := Expr.isFlat_of_not_isSlice whole
        exact store_scalar layout closed tracked flat scalar sized trivial inside
    | @region size parts value fit flat =>
      cases tracked : (Expr.assemble .struct size parts value).isConcrete with
      | true => exact store_isConcrete layout closed tracked address
      | false => exact store_region layout closed tracked fit flat (fun _ _ ↦ trivial) inside
  exact spec.imp fun _ spec ↦ ⟨spec.1, spec.2.1⟩

omit closed in
/-- Checked arithmetic stores what does not wrap around. -/
theorem store?_completes (cuttable : AllCells Expr.Cuttable memory.cells) {operand : Operand}
    (storable : operand.Storable) (inside : address.toNat + operand.bytes < 2 ^ 64) :
    Completes (memory.store? address operand) (memory.store address operand) := by
  have clears := concretize?_completes layout cuttable inside
  cases storable with
  | concrete typed => exact clears
  | constant constant =>
    exact .ite (fun _ ↦ clears) fun tracked ↦ absurd constant tracked
  | slice slice flat nonempty =>
    refine .ite (fun _ ↦ clears) fun _ ↦ write?_completes layout cuttable inside ?_
    rintro size parts value rfl
    contradiction
  | scalar whole scalar sized =>
    refine .ite (fun _ ↦ clears) fun _ ↦ write?_completes layout cuttable inside ?_
    rintro size parts value rfl
    exact absurd rfl scalar
  | region fit flat =>
    refine .ite (fun _ ↦ clears) fun _ ↦ write?_completes layout cuttable inside ?_
    rintro _ _ _ ⟨rfl, rfl, rfl⟩ part member
    exact Nat.le_trans (Nat.le_add_right _ _) (fit.inside part member)

end Store

/-- One input of eight bytes. -/
def oneInput : Memory :=
  ⟨WordMap.empty.insert 0x1000 (.mkInput 0 .long 5)⟩

/-- Five bytes of an aggregate: a slice of one byte, a byte of the program's own, and an input. -/
def mixedRegion : Operand :=
  .symbolic (.assemble .struct 5
    [(0, .slice (.mkInput 0 .long 5) 2 1 0), (2, .mkInput 1 .ushort 7)] 5)

theorem layout_oneInput : Layout oneInput.cells :=
  layout_empty.insert ⟨trivial, by decide, by decide⟩ fun byte _ ↦
    (Layout.origin?_eq_none_iff _ byte).mpr (by simp)

/-- An input of four bytes sixteen bytes below the end of memory. -/
def highInput : Memory :=
  ⟨WordMap.empty.insert 0xfffffffffffffff0 (.mkInput 0 .int 5)⟩

/-- A slice of no bytes. -/
def emptySlice : Expr :=
  .slice (.mkInput 1 .ulong 7) 1 0 0

end Memory

end Concolic
