import Concolic.Proofs.Machine.Upkeep

/-!
# Bindings stay apart

On every run the bindings in memory are ranges of at least one byte that have no byte in common, so
that a search finds a binding wherever one covers a byte.  There is one exception: an operator may
be given an aggregate for its result, which makes an expression of no bytes.  Storing one that
depends on inputs binds it, on top of another binding or in the midst of one.  Runs that store no
such operand keep the bindings apart, whatever else they do.
-/

namespace Concolic

/-- The operand depends on inputs and has no bytes. -/
def Operand.isVacant : Operand → Bool
  | .concrete _ => false
  | .symbolic e => !e.isConcrete && e.bytes == 0

/-- Bindings have bytes and share none, and a search of a range succeeds where a binding covers
some of it. -/
structure Memory.Separate (memory : Memory) : Prop where
  nonempty : ∀ start e, memory.get? start = some e → 0 < e.bytes
  disjoint : ∀ start e other f byte, memory.get? start = some e → memory.get? other = some f →
    Spans start e byte → Spans other f byte → start = other
  search : ∀ address length, 0 < length →
    (memory.isSymbolic address length = true ↔ ∃ start e byte, memory.get? start = some e ∧
      InRange address.toNat (address.toNat + length) byte ∧ Spans start e byte)

theorem Layout.separate {memory : Memory} (layout : Layout memory.cells) : memory.Separate where
  nonempty := layout.nonempty
  disjoint _ _ _ _ _ first second here there := (layout.ranges.eq_of_spans first second here there).1
  search address _ some_bytes := memory.isSymbolic_iff layout address some_bytes

namespace Machine

/-- No operand without bytes is stored. -/
def Solid (machine : Machine) : Event → Prop
  | .store _ _ | .write _ _ => machine.OnTop fun operand ↦ operand.isVacant = false
  | _ => True

instance (machine : Machine) : (event : Event) → Decidable (machine.Solid event)
  | .store _ _ | .write _ _ => inferInstanceAs (Decidable (machine.OnTop _))
  | .newInput _ _ | .load _ _ _ _ | .deref _ _ _ _ | .alloc _ _ _ | .dropOperands _
  | .unary _ _ _ _ | .binary _ _ _ _ | .compare _ _ _ _ | .pointer _ _ _ _ | .untracked _ _ _
  | .branch _ _ _ | .call _ _ | .ret _ | .takeResult _ _ _ => .isTrue trivial

/-- Operands are those that evaluation produces, or have no bytes. -/
def separation : Invariant where
  asked _ := True
  cell _ _ := True
  operand _ operand :=
    operand.Formed (fun _ ↦ True) ∨ ∃ e, operand = .symbolic e ∧ e.bytes = 0
  constraint _ _ := True

theorem separation_lawful : separation.Lawful fun _ ↦ True where
  read _ := ⟨fun _ _ _ _ _ _ _ ↦ trivial, fun _ _ _ _ _ _ ↦ trivial, fun _ _ _ _ _ _ _ _ ↦ trivial⟩
  formed _ _ formed := .inl formed

section Operators

variable {asked : Asked} {ty : CType} {value : Value}

theorem separation_concrete : separation.operand asked (.concrete (.of ty value)) :=
  .inl (formed_concrete _ ty value)

/-- A node that has the size of its type has that of a scalar or none. -/
theorem separation_symbolic {e : Expr} (flat : e.IsFlat) (sized : e.bytes = e.ty.size) :
    separation.operand asked (.symbolic e) := by
  by_cases aggregate : e.ty = .struct
  · exact .inr ⟨e, rfl, by rw [sized, aggregate]; rfl⟩
  · exact .inl (.scalar flat aggregate sized trivial)

theorem separation_applyUnary (op : UnaryOp) (operand : Operand) :
    separation.operand asked (applyUnary op operand ty value) := by
  cases operand with
  | concrete typed => exact separation_concrete
  | symbolic e => exact separation_symbolic trivial rfl

variable (lhs rhs : Operand)

theorem separation_applyBinary (op : BinaryOp) :
    separation.operand asked (applyBinary op lhs rhs ty value) := by
  unfold applyBinary
  split
  · exact separation_symbolic trivial rfl
  · exact separation_concrete

theorem separation_applyCompare (op : CompareOp) :
    separation.operand asked (applyCompare op lhs rhs ty value) := by
  unfold applyCompare
  split
  · exact separation_symbolic trivial rfl
  · exact separation_concrete

theorem separation_applyPointer (op : PointerOp) (size : BitVec 64) :
    separation.operand asked (applyPointer op lhs rhs size value) := by
  unfold applyPointer
  split
  · exact separation_symbolic trivial rfl
  · exact separation_concrete

end Operators

variable {machine : Machine}

/-- An operand that has bytes where it depends on inputs is stored as any other. -/
theorem accepts_of_solid (upholds : machine.Upholds separation) {address : Address}
    {operand : Operand} (member : operand ∈ machine.stack) (fits : FitsAt address operand.bytes)
    (solid : operand.isVacant = false) : machine.Accepts separation address operand := by
  rcases upholds.stack operand member with formed | ⟨e, rfl, empty⟩
  · exact upholds.accepts separation_lawful formed fits
  · intro memory stored
    have closed := (separation_lawful.read machine.asked).cut
    have concrete : e.isConcrete = true := by simpa [Operand.isVacant, empty] using solid
    obtain ⟨expected, ran, spec, all⟩ :=
      Memory.store_isConcrete upholds.layout closed concrete address
    have same : memory = expected := Except.ok.inj (stored.symm.trans ran)
    rw [same]
    exact ⟨spec.layout, all upholds.cells⟩

theorem sustains_separation (upholds : machine.Upholds separation) {event : Event}
    (bounds : machine.InBounds event) (solid : machine.Solid event) :
    machine.Sustains (fun _ ↦ True) separation event := by
  have grows (asked after : Asked) : separation.Grows asked after :=
    ⟨fun _ _ ↦ trivial, fun _ operand ↦ operand, fun _ _ ↦ trivial⟩
  cases event with
  | newInput ty address => exact ⟨bounds, fun _ _ _ ↦ ⟨trivial, grows _ _, trivial⟩⟩
  | load id address ty value | deref id address ty value => exact ⟨trivial, bounds⟩
  | store id address | write id address =>
    intro operand rest stack
    exact accepts_of_solid upholds (by simp [stack]) (bounds operand rest stack)
      (solid operand rest stack)
  | unary id op ty value => exact fun operand _ _ ↦ separation_applyUnary op operand
  | binary id op ty value => exact fun rhs lhs _ _ ↦ separation_applyBinary lhs rhs op
  | compare id op ty value => exact fun rhs lhs _ _ ↦ separation_applyCompare lhs rhs op
  | pointer id op size value => exact fun rhs lhs _ _ ↦ separation_applyPointer lhs rhs op size
  | branch => exact fun _ _ _ ↦ trivial
  | alloc | dropOperands | untracked | call | ret | takeResult => trivial

/-- A run that stores no operand without bytes keeps the bindings apart. -/
theorem run_separate {policy : PointerPolicy} {inputs : List Value} {events : List Event}
    {final : Machine} (bounds : (start policy inputs).Along InBounds events)
    (solid : (start policy inputs).Along Solid events)
    (ran : (start policy inputs).run events = .ok final) : final.memory.Separate := by
  have upholds : final.Upholds separation :=
    (upholds_start policy inputs trivial).run separation_lawful
      (fun _ _ upholds allowed ↦ sustains_separation upholds allowed.1 allowed.2)
      (bounds.and solid) ran
  exact upholds.layout.separate

/-- Two overlapping inputs, an aggregate copied over the second, a result that is an aggregate and
is dropped, and a scalar stored across what is bound. -/
def patchedEvents : List Event :=
  [.newInput .int 0x1000, .newInput .short 0x1002, .load 1 0x1000 .struct 3, .store 2 0x1003,
    .load 3 0x1000 .uchar 7, .unary 4 .negate .struct 0, .dropOperands 5,
    .load 6 0x1002 .short 9, .store 7 0x1001]

theorem run_separate_patched :
    ∃ final, (start .forget [7, 9]).run patchedEvents = .ok final ∧
      (start .forget [7, 9]).Along InBounds patchedEvents ∧
      (start .forget [7, 9]).Along Solid patchedEvents ∧ final.memory.Separate := by
  have bounds : (start .forget [7, 9]).Along InBounds patchedEvents := by decide +kernel
  have solid : (start .forget [7, 9]).Along Solid patchedEvents := by decide +kernel
  exact ⟨_, rfl, bounds, solid, run_separate bounds solid rfl⟩

/-- The result of an operator at an aggregate type is stored in the midst of an input. -/
def vacantEvents : List Event :=
  [.newInput .int 0x1000, .load 1 0x1000 .int 7, .unary 2 .unsignedCast .struct 0,
    .store 3 0x1002]

/-- The third byte of the input is still bound and no longer found. -/
theorem run_hides_binding :
    ∃ final e, (start .forget [7]).run vacantEvents = .ok final ∧
      (start .forget [7]).Along InBounds vacantEvents ∧
      final.memory.get? 0x1000 = some e ∧ Spans 0x1000 e 0x1002 ∧
      final.memory.isSymbolic 0x1002 1 = false ∧ ¬final.memory.Separate := by
  have bounds : (start .forget [7]).Along InBounds vacantEvents := by decide +kernel
  refine ⟨_, _, rfl, bounds, rfl, by decide, by decide +kernel, fun separate ↦ ?_⟩
  have empty := separate.nonempty 0x1002 _ rfl
  exact absurd empty (by decide)

end Machine

end Concolic
