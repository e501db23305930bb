import Concolic.Proofs.Memory.ByteMap
import Concolic.Proofs.Memory.Load

/-!
# Copying regions

A region is copied by reading its bytes as an aggregate and storing what was read.  The read takes
the bindings out of the source before the store clears the target, so that the two may overlap in
either direction: every byte of the target gets the origin that the byte of the source had, or none
where no binding covered that, and all other bytes keep theirs.
-/

namespace Concolic

/-- An aggregate that would be bound as a whole. -/
def Expr.isRegion : Expr → Bool
  | .assemble .struct _ _ _ => true
  | _ => false

/-- What a byte is bound to depends on inputs and is no aggregate. -/
structure Expr.Bindable (e : Expr) : Prop where
  tracked : e.isConcrete = false
  part : e.isRegion = false

instance (e : Expr) : Decidable e.Bindable :=
  decidable_of_iff (e.isConcrete = false ∧ e.isRegion = false)
    ⟨fun ⟨tracked, part⟩ ↦ ⟨tracked, part⟩, fun ⟨tracked, part⟩ ↦ ⟨tracked, part⟩⟩

/-- A layout of expressions that depend on inputs, with aggregates bound part by part. -/
structure Memory.Scattered (memory : Memory) : Prop where
  layout : Layout memory.cells
  bindable : AllCells Expr.Bindable memory.cells

instance (memory : Memory) : Decidable memory.Scattered :=
  decidable_of_iff (Layout memory.cells ∧ AllCells Expr.Bindable memory.cells)
    ⟨fun ⟨layout, bindable⟩ ↦ ⟨layout, bindable⟩, fun ⟨layout, bindable⟩ ↦ ⟨layout, bindable⟩⟩

theorem cutClosed_bindable : CutClosed Expr.Bindable := by
  intro e offset bytes _ bindable _ _
  unfold Expr.cut
  split
  · exact bindable
  · refine ⟨?_, rfl⟩
    cases e <;> exact bindable.tracked

namespace Memory

variable {memory : Memory} {source target : Address} {length : Nat}

theorem isSymbolic_eq_isSome (layout : Layout memory.cells) (address : Address) :
    memory.isSymbolic address 1 = (memory.view address.toNat).isSome := by
  rw [Bool.eq_iff_iff, memory.isSymbolic_iff layout address (by omega)]
  constructor
  · rintro ⟨start, e, byte, found, range, spans⟩
    obtain rfl : byte = address.toNat := by
      unfold InRange at range
      omega
    exact Option.isSome_iff_exists.mpr ⟨_, layout.origin?_of_spans found spans⟩
  · intro covered
    obtain ⟨origin, here⟩ := Option.isSome_iff_exists.mp covered
    obtain ⟨start, e, found, spans, -⟩ := Layout.exists_of_origin? here
    exact ⟨start, e, address.toNat, found, ⟨Nat.le_refl _, Nat.lt_succ_self _⟩, spans⟩

/-- An aggregate is loaded as the parts of its bytes, if there are any. -/
theorem loaded_region (ranges : Ranges memory.cells) {observed : TypedValue}
    (aggregate : observed.ty = .struct) (narrow : observed.bytes < 2 ^ 32) (address : Address) :
    memory.partsIn address observed.bytes = [] ∧
        memory.loaded address observed = .concrete observed ∨
      memory.partsIn address observed.bytes ≠ [] ∧
        memory.loaded address observed = .symbolic (.assemble .struct (.ofNat 32 observed.bytes)
          (memory.partsIn address observed.bytes) observed.value) := by
  have fit := partsFit_partsIn ranges address narrow
  have normal : CType.struct.normalize observed.value = observed.value := rfl
  unfold loaded
  rw [aggregate, if_pos (by rfl), combine_struct aggregate, mkAssemble_eq fit normal]
  by_cases none : memory.partsIn address observed.bytes = []
  · exact .inl ⟨none, if_pos none⟩
  · exact .inr ⟨none, if_neg none⟩

/-- What reading a region gives: an operand of its size, whose bytes have the origins of those that
were read. -/
structure Taken (memory : Memory) (source : Address) (length : Nat) (operand : Operand) :
    Prop where
  formed : operand.Formed Expr.Bindable
  bytes : operand.bytes = length
  origin : ∀ index < length, operand.origin? index = memory.view (source.toNat + index)

theorem taken_loaded (scattered : memory.Scattered) (source : Address) (narrow : length < 2 ^ 32) :
    memory.Taken source length (memory.loaded source (.of .struct (.ofNat 64 length))) := by
  obtain ⟨layout, bindable⟩ := scattered
  have size : (TypedValue.of .struct (.ofNat 64 length)).bytes = length :=
    Nat.mod_eq_of_lt (by omega)
  have width : (BitVec.ofNat 32 length).toNat = length := Nat.mod_eq_of_lt narrow
  have origins (index : Nat) (inside : index < length) :
      partOrigin? (memory.partsIn source length) index = memory.view (source.toNat + index) :=
    partOrigin?_partsIn layout source narrow inside
  have aggregate : (TypedValue.of .struct (.ofNat 64 length)).ty = .struct := rfl
  rcases loaded_region layout.ranges aggregate (by rwa [size]) source with
    ⟨none, loaded⟩ | ⟨some_parts, loaded⟩
  · rw [size] at none
    rw [loaded]
    refine ⟨.concrete rfl, size, fun index inside ↦ ?_⟩
    rw [← origins index inside, none]
    rfl
  · rw [size] at some_parts loaded
    have fit := partsFit_partsIn layout.ranges source narrow
    have each (part : BitVec 32 × Expr) (member : part ∈ memory.partsIn source length) :
        part.2.Bindable := all_partsIn layout cutClosed_bindable bindable member
    obtain ⟨part, member⟩ := List.exists_mem_of_ne_nil _ some_parts
    have depends : Expr.arePartsConcrete (memory.partsIn source length) = false := by
      rw [Expr.arePartsConcrete_eq_all, List.all_eq_false]
      exact ⟨part, member, by simp [(each part member).tracked]⟩
    rw [loaded]
    refine ⟨.region (by rwa [width]) (fun _ member ↦ flat_partsIn layout narrow member) each,
      width, fun index inside ↦ ?_⟩
    rw [← origins index inside]
    exact if_neg (by simp [Expr.isConcrete, depends])

/-- An input of eight bytes, three bytes of another one behind it, and a third one after a byte of
the program's own. -/
def inARow : Memory :=
  ⟨.ofList [(0x1000, .mkInput 0 .long 5), (0x1008, .slice (.mkInput 1 .int 9) 1 3 0),
    (0x100c, .mkInput 2 .short 7)]⟩

end Memory

end Concolic
