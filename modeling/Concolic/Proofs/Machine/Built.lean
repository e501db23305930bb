import Concolic.Proofs.Machine.Honest

/-!
# Expressions that runs build

Whatever values a run reports, it builds trees of one shape, as long as aggregates are not given to
operators: no node is an aggregate, recorded values are converted to the types of their nodes,
slices are proper parts, assembled values have parts that fit, and inputs have the types that are
declared for them.  Aggregates stay on the stack, as plain values or as parts in a region.
-/

namespace Concolic

open Concolic.Expr

/-- A well-shaped node, and an input only at its declared type.  Inputs have numbers of 32 bits, so
that declarations tell the types of all inputs as long as the numbers do not wrap. -/
structure Built (asked : Asked) (node : Expr) : Prop where
  shaped : node.WellShaped
  declared : asked.count ≤ 2 ^ 32 → ∀ id ty value, node = .input id ty value →
    asked.vars.get? id = some ty

/-- A tree of nodes that a run builds. -/
def AllBuilt (asked : Asked) : Expr → Prop :=
  Everywhere (Built asked)

variable {asked : Asked} {e l r : Expr} {ty : CType} {value : Value}

theorem built_of_inner {node : Expr} (inner : node.isInput = false) (shaped : node.WellShaped) :
    Built asked node :=
  ⟨shaped, fun _ id ty value same ↦ by
    rw [same] at inner
    contradiction⟩

namespace AllBuilt

theorem shaped (built : AllBuilt asked e) : Everywhere WellShaped e :=
  built.mono fun _ node ↦ node.shaped

theorem declared (built : AllBuilt asked e) (narrow : asked.count ≤ 2 ^ 32) (id : InputId)
    (ty : CType) (value : Value) (member : .input id ty value ∈ e.leaves) :
    asked.vars.get? id = some ty := by
  have inputs := built.mono fun _ node ↦ node.declared narrow
  exact (everywhere_input_iff e).mp inputs id ty value member

theorem const (scalar : ty ≠ .struct) : AllBuilt asked (.mkConst ty value) :=
  (everywhere_leaf rfl).mpr (built_of_inner rfl ⟨scalar, ty.normalize_normalize value⟩)

theorem input {id : InputId} (scalar : ty ≠ .struct) (declared : asked.vars.get? id = some ty) :
    AllBuilt asked (.mkInput id ty value) := by
  refine (everywhere_leaf rfl).mpr ⟨⟨scalar, ty.normalize_normalize value⟩, ?_⟩
  rintro - id ty value same
  cases same
  exact declared

theorem unary (op : UnaryOp) (scalar : ty ≠ .struct) (built : AllBuilt asked e) :
    AllBuilt asked (.mkUnary op e ty value) :=
  (everywhere_unary ..).mpr
    ⟨built_of_inner rfl ⟨scalar, ty.normalize_normalize value⟩, built⟩

theorem binary (op : BinaryOp) (scalar : ty ≠ .struct) (left : AllBuilt asked l)
    (right : AllBuilt asked r) : AllBuilt asked (.mkBinary op l r ty value) :=
  (everywhere_binary ..).mpr
    ⟨built_of_inner rfl ⟨scalar, ty.normalize_normalize value⟩, left, right⟩

theorem compare (op : CompareOp) (scalar : ty ≠ .struct) (left : AllBuilt asked l)
    (right : AllBuilt asked r) : AllBuilt asked (.mkCompare op l r ty value) :=
  (everywhere_compare ..).mpr
    ⟨built_of_inner rfl ⟨scalar, ty.normalize_normalize value⟩, left, right⟩

theorem pointer (op : PointerOp) (size : BitVec 64) (left : AllBuilt asked l)
    (right : AllBuilt asked r) : AllBuilt asked (.mkPointer op l r size value) :=
  (everywhere_pointer ..).mpr ⟨built_of_inner rfl trivial, left, right⟩

theorem condition (scalar : e.ty ≠ .struct) (built : AllBuilt asked e) :
    AllBuilt asked e.condition := by
  unfold Expr.condition
  split
  · exact built
  · exact compare .ne (by decide) built (const scalar)

theorem cutClosed (asked : Asked) : CutClosed (AllBuilt asked) :=
  fun _ _ _ flat built nonempty inside ↦ everywhere_cut built fun part ↦
    built_of_inner rfl (wellShaped_cut built.here.shaped flat nonempty inside part)

theorem convert (scalar : ty ≠ .struct) (built : AllBuilt asked e) :
    AllBuilt asked (Memory.convert e ty) := by
  unfold Memory.convert
  split
  · exact built
  · exact unary _ scalar built

theorem assemble {parts : List (BitVec 32 × Expr)} (scalar : ty ≠ .struct)
    (normal : ty.normalize value = value) (fit : PartsFit ty.size parts)
    (each : ∀ part ∈ parts, AllBuilt asked part.2) :
    AllBuilt asked (.assemble ty (.ofNat 32 ty.size) parts value) := by
  have size := Memory.size_ofNat ty
  exact (everywhere_assemble ..).mpr
    ⟨built_of_inner rfl ⟨scalar, size, size.symm ▸ fit, normal⟩, each⟩

theorem readClosed (asked : Asked) : Memory.ReadClosed (fun _ ↦ True) (AllBuilt asked) where
  cut := cutClosed asked
  convert _ _ _ scalar _ built := built.convert scalar
  assemble _ _ _ _ scalar normal fit each :=
    assemble scalar normal fit fun part member ↦ (each part member).1

/-- The next input changes nothing about older trees. -/
theorem next (numbered : asked.count ≤ 2 ^ 32 → asked.Numbered) (built : AllBuilt asked e) :
    AllBuilt (asked.next ty) e := by
  refine built.mono fun node built ↦ ⟨built.shaped, fun narrow id type value same ↦ ?_⟩
  have below : asked.count < 2 ^ 32 := narrow
  have known := built.declared (Nat.le_of_lt below) id type value same
  exact (numbered (Nat.le_of_lt below)).get?_next_of_get? below known

theorem lift {operand : Operand} (formed : operand.Formed (AllBuilt asked))
    (scalarOperand : operand.ty ≠ .struct) (scalar : ty ≠ .struct) :
    AllBuilt asked (operand.lift ty) := by
  cases operand with
  | symbolic e => exact (Operand.holds_of_symbolic formed scalarOperand).1
  | concrete typed =>
    rw [Operand.lift_concrete scalar]
    exact const scalar

end AllBuilt

namespace Machine

/-- Operators and branches meet no aggregates, and operators give none. -/
def ScalarOnly (machine : Machine) : Event → Prop
  | .unary _ _ ty _ => ty ≠ .struct ∧ machine.OnTop fun operand ↦ operand.ty ≠ .struct
  | .binary _ _ ty _ | .compare _ _ ty _ =>
    ty ≠ .struct ∧ machine.OnTopTwo fun lhs rhs ↦ lhs.ty ≠ .struct ∧ rhs.ty ≠ .struct
  | .pointer _ _ _ _ => machine.OnTopTwo fun lhs rhs ↦ lhs.ty ≠ .struct ∧ rhs.ty ≠ .struct
  | .branch _ _ _ => machine.OnTop fun operand ↦ operand.ty ≠ .struct
  | _ => True

instance (machine : Machine) : (event : Event) → Decidable (machine.ScalarOnly event)
  | .unary _ _ _ _ | .binary _ _ _ _ | .compare _ _ _ _ => inferInstanceAs (Decidable (_ ∧ _))
  | .pointer _ _ _ _ => inferInstanceAs (Decidable (machine.OnTopTwo _))
  | .branch _ _ _ => inferInstanceAs (Decidable (machine.OnTop _))
  | .newInput _ _ | .alloc _ _ _ | .load _ _ _ _ | .deref _ _ _ _ | .store _ _ | .write _ _
  | .dropOperands _ | .untracked _ _ _ | .call _ _ | .ret _ | .takeResult _ _ _ =>
    .isTrue trivial

def building : Invariant where
  asked asked := asked.count ≤ 2 ^ 32 → asked.Numbered
  cell := AllBuilt
  operand asked := Operand.Formed (AllBuilt asked)
  constraint asked constraint := AllBuilt asked constraint.condition

theorem building_lawful : building.Lawful fun _ ↦ True where
  read := AllBuilt.readClosed
  formed _ _ formed := formed

theorem building_grows (numbered : asked.count ≤ 2 ^ 32 → asked.Numbered) (ty : CType) :
    building.Grows asked (asked.next ty) where
  cell _ built := built.next numbered
  operand _ formed := formed.mono fun _ built ↦ built.next numbered
  constraint _ built := built.next numbered

section Operators

variable {operand lhs rhs : Operand}

theorem built_applyUnary (op : UnaryOp) (formed : operand.Formed (AllBuilt asked))
    (scalarOperand : operand.ty ≠ .struct) (scalar : ty ≠ .struct) :
    (applyUnary op operand ty value).Formed (AllBuilt asked) := by
  cases operand with
  | concrete typed => exact formed_concrete _ ty value
  | symbolic e =>
    have built := (Operand.holds_of_symbolic formed scalarOperand).1
    exact .scalar trivial scalar rfl (.unary op scalar built)

variable (left : lhs.Formed (AllBuilt asked)) (right : rhs.Formed (AllBuilt asked))
  (scalars : lhs.ty ≠ .struct ∧ rhs.ty ≠ .struct)

include left right scalars

theorem built_applyBinary (op : BinaryOp) (scalar : ty ≠ .struct) :
    (applyBinary op lhs rhs ty value).Formed (AllBuilt asked) := by
  unfold applyBinary
  split
  · exact .scalar trivial scalar rfl
      (.binary op scalar (.lift left scalars.1 scalar) (.lift right scalars.2 scalar))
  · exact formed_concrete _ ty value

theorem built_applyCompare (op : CompareOp) (scalar : ty ≠ .struct) :
    (applyCompare op lhs rhs ty value).Formed (AllBuilt asked) := by
  unfold applyCompare
  split
  · exact .scalar trivial scalar rfl
      (.compare op scalar (.lift left scalars.1 scalars.2) (.lift right scalars.2 scalars.1))
  · exact formed_concrete _ ty value

theorem built_applyPointer (op : PointerOp) (size : BitVec 64) :
    (applyPointer op lhs rhs size value).Formed (AllBuilt asked) := by
  have scalarRight : op.rightType ≠ .struct := by cases op <;> decide
  unfold applyPointer
  split
  · exact .scalar trivial op.resultType_ne_struct rfl
      (.pointer op size (.lift left scalars.1 (by decide)) (.lift right scalars.2 scalarRight))
  · exact formed_concrete _ _ value

end Operators

variable {machine : Machine}

theorem sustains_building (upholds : machine.Upholds building) {event : Event}
    (bounds : machine.InBounds event) (scalarOnly : machine.ScalarOnly event) :
    machine.Sustains (fun _ ↦ True) building event := by
  have formed {operand : Operand} (member : operand ∈ machine.stack) :=
    upholds.stack operand member
  cases event with
  | newInput ty address =>
    refine ⟨bounds, fun entry scalar _ ↦ ⟨fun narrow ↦ ?_, building_grows upholds.asked ty,
      .input scalar (machine.asked.get?_next ty)⟩⟩
    have below : machine.inputCount < 2 ^ 32 := narrow
    exact (upholds.asked (Nat.le_of_lt below)).next below
  | load id address ty value | deref id address ty value => exact ⟨trivial, bounds⟩
  | store id address | write id address =>
    intro operand rest stack
    exact upholds.accepts building_lawful (formed (by simp [stack])) (bounds operand rest stack)
  | unary id op ty value =>
    intro operand rest stack
    exact built_applyUnary op (formed (by simp [stack])) (scalarOnly.2 operand rest stack)
      scalarOnly.1
  | binary id op ty value =>
    intro rhs lhs rest stack
    exact built_applyBinary (formed (by simp [stack])) (formed (by simp [stack]))
      (scalarOnly.2 rhs lhs rest stack) op scalarOnly.1
  | compare id op ty value =>
    intro rhs lhs rest stack
    exact built_applyCompare (formed (by simp [stack])) (formed (by simp [stack]))
      (scalarOnly.2 rhs lhs rest stack) op scalarOnly.1
  | pointer id op size value =>
    intro rhs lhs rest stack
    exact built_applyPointer (formed (by simp [stack])) (formed (by simp [stack]))
      (scalarOnly rhs lhs rest stack) op size
  | branch id branch taken =>
    intro e index stack
    have scalar := scalarOnly (.symbolic e) [] stack
    exact (Operand.holds_of_symbolic (formed (by simp [stack])) scalar).1.condition scalar
  | alloc | dropOperands | untracked | call | ret | takeResult => trivial

/-- A run that gives operators no aggregates builds trees of one shape. -/
theorem upholds_building {policy : PointerPolicy} {inputs : List Value} {events : List Event}
    {final : Machine} (bounds : (start policy inputs).Along InBounds events)
    (scalarOnly : (start policy inputs).Along ScalarOnly events)
    (ran : (start policy inputs).run events = .ok final) : final.Upholds building := by
  have started : (start policy inputs).Upholds building :=
    upholds_start policy inputs fun _ _ _ found ↦ by cases found
  exact started.run building_lawful
    (fun _ _ upholds allowed ↦ sustains_building upholds allowed.1 allowed.2)
    (bounds.and scalarOnly) ran

end Machine

end Concolic
