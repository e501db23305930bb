import Concolic.Proofs.Expr.WellFormed

/-!
# Truth values as bytes

A truth value and an unsigned byte have the same width and sign.  Every tree has a variant in which
the one stands for the other: it takes the same bytes from the same inputs, and where the nodes of
the tree are scalars whose bytes fit those of the variant have a bit-vector form.  The two evaluate
to the same value as long as no conversion to a truth value changes the byte that it is made of.
-/

namespace Concolic

/-- The type itself, and that of a byte for a truth value. -/
def CType.asByte : CType → CType
  | .bool => .uchar
  | ty => ty

namespace CType

@[simp]
theorem size_asByte (ty : CType) : ty.asByte.size = ty.size := by
  cases ty <;> rfl

@[simp]
theorem bits_asByte (ty : CType) : ty.asByte.bits = ty.bits := by
  cases ty <;> rfl

@[simp]
theorem isSigned_asByte (ty : CType) : ty.asByte.isSigned = ty.isSigned := by
  cases ty <;> rfl

@[simp]
theorem isStruct_asByte (ty : CType) : ty.asByte.isStruct = ty.isStruct := by
  cases ty <;> rfl

theorem asByte_ne_bool (ty : CType) : ty.asByte ≠ .bool := by
  cases ty <;> decide

theorem asByte_ne_struct {ty : CType} (scalar : ty ≠ .struct) : ty.asByte ≠ .struct := by
  cases ty <;> first | contradiction | decide

theorem normalize_asByte {ty : CType} {value : Value} (normal : ty.normalize value = value) :
    ty.asByte.normalize value = value := by
  cases ty with
  | bool =>
    rw [← normal, normalize_bool]
    split <;> decide
  | _ => exact normal

end CType

def Leaf.asBytes : Leaf → Leaf
  | .input id ty value => .input id ty.asByte value
  | .const ty value => .const ty.asByte value

namespace Expr

mutual

/-- The tree with bytes for truth values. -/
def asBytes : Expr → Expr
  | .input id ty value => .input id ty.asByte value
  | .const ty value => .const ty.asByte value
  | .unary op e ty value => .unary op (asBytes e) ty.asByte value
  | .binary op l r ty value => .binary op (asBytes l) (asBytes r) ty.asByte value
  | .compare op l r ty value => .compare op (asBytes l) (asBytes r) ty.asByte value
  | .pointer op l r size value => .pointer op (asBytes l) (asBytes r) size value
  | .slice e offset bytes value => .slice (asBytes e) offset bytes value
  | .assemble ty size parts value => .assemble ty.asByte size (partsAsBytes parts) value

def partsAsBytes : List (BitVec 32 × Expr) → List (BitVec 32 × Expr)
  | [] => []
  | (offset, e) :: rest => (offset, asBytes e) :: partsAsBytes rest

end

theorem partsAsBytes_eq_map (parts : List (BitVec 32 × Expr)) :
    partsAsBytes parts = parts.map fun part ↦ (part.1, part.2.asBytes) := by
  induction parts with
  | nil => rfl
  | cons part rest ih => rw [partsAsBytes, ih, List.map_cons]

@[simp]
theorem bytes_asBytes (e : Expr) : e.asBytes.bytes = e.bytes := by
  cases e <;> simp [asBytes, bytes, ty]

@[simp]
theorem bits_asBytes (e : Expr) : e.asBytes.bits = e.bits := by
  rw [bits, bits, bytes_asBytes]

@[simp]
theorem isSigned_asBytes (e : Expr) : e.asBytes.isSigned = e.isSigned := by
  cases e <;> simp [asBytes, isSigned, ty]

theorem leaves_asBytes (e : Expr) : e.asBytes.leaves = e.leaves.map Leaf.asBytes := by
  induction e with
  | input | const => rfl
  | unary op e ty value ih | slice e offset bytes value ih => exact ih
  | binary op l r ty value ihl ihr | compare op l r ty value ihl ihr
  | pointer op l r size value ihl ihr =>
    rw [asBytes, leaves, leaves, ihl, ihr, List.map_append]
  | assemble ty size parts value ih =>
    rw [asBytes, leaves, leaves]
    induction parts with
    | nil => rfl
    | cons part rest ihRest =>
      obtain ⟨here, later⟩ := List.forall_mem_cons.mp ih
      rw [partsAsBytes, leavesOfParts, leavesOfParts, here, ihRest later, List.map_append]

theorem partsFit_partsAsBytes {size : Nat} {parts : List (BitVec 32 × Expr)}
    (fit : PartsFit size parts) : PartsFit size (partsAsBytes parts) := by
  rw [partsAsBytes_eq_map]
  constructor
  · refine List.pairwise_map.mpr (fit.ordered.imp fun before ↦ ?_)
    rwa [bytes_asBytes]
  · intro part member
    obtain ⟨other, present, rfl⟩ := List.mem_map.mp member
    rw [bytes_asBytes]
    exact fit.nonempty other present
  · intro part member
    obtain ⟨other, present, rfl⟩ := List.mem_map.mp member
    rw [bytes_asBytes]
    exact fit.inside other present

/-- What a node of a scalar tree needs in order to have a bit-vector form with bytes for truth
values. -/
def ByteEncodable : Expr → Prop
  | .input _ ty value | .const ty value => ty ≠ .struct ∧ ty.normalize value = value
  | .unary _ _ ty _ | .binary _ _ _ ty _ | .compare _ _ _ ty _ => ty ≠ .struct
  | .pointer .. => True
  | .slice whole offset bytes _ =>
    0 < bytes.toNat ∧ offset.toNat + bytes.toNat ≤ whole.bytes
  | .assemble ty size parts _ => ty ≠ .struct ∧ size.toNat = ty.size ∧ PartsFit size.toNat parts

instance : (e : Expr) → Decidable (ByteEncodable e)
  | .input .. | .const .. | .slice .. => inferInstanceAs (Decidable (_ ∧ _))
  | .unary .. | .binary .. | .compare .. => inferInstanceAs (Decidable (_ ≠ _))
  | .pointer .. => inferInstanceAs (Decidable True)
  | .assemble .. => inferInstanceAs (Decidable (_ ∧ _ ∧ _))

theorem WellShaped.byteEncodable {e : Expr} (shaped : e.WellShaped) : e.ByteEncodable := by
  cases e with
  | input | const => exact shaped
  | unary | binary | compare => exact shaped.1
  | pointer => trivial
  | slice whole offset bytes value => exact ⟨shaped.1, shaped.2.1.2.1⟩
  | assemble ty size parts value => exact ⟨shaped.1, shaped.2.1, shaped.2.2.1⟩

theorem encodable_asBytes {e : Expr} (encodable : e.ByteEncodable) : e.asBytes.Encodable := by
  cases e with
  | input id ty value | const ty value =>
    exact ⟨CType.asByte_ne_struct encodable.1, CType.normalize_asByte encodable.2⟩
  | unary op e ty value =>
    exact ⟨CType.asByte_ne_struct encodable, fun truth ↦ absurd truth ty.asByte_ne_bool⟩
  | binary op l r ty value => exact ⟨CType.asByte_ne_struct encodable, ty.asByte_ne_bool⟩
  | compare op l r ty value => exact CType.asByte_ne_struct encodable
  | pointer op l r size value => trivial
  | slice whole offset bytes value =>
    obtain ⟨nonempty, inside⟩ := encodable
    exact ⟨nonempty, whole.bytes_asBytes.symm ▸ inside⟩
  | assemble ty size parts value =>
    obtain ⟨scalar, sized, fit⟩ := encodable
    exact ⟨CType.asByte_ne_struct scalar, ty.asByte_ne_bool, sized.trans ty.size_asByte.symm,
      partsFit_partsAsBytes fit⟩

theorem children_asBytes (e : Expr) : e.asBytes.children = e.children.map asBytes := by
  cases e <;> simp [asBytes, children, partsAsBytes_eq_map]

theorem everywhere_encodable_asBytes {e : Expr} (nodes : Everywhere ByteEncodable e) :
    Everywhere Encodable e.asBytes := by
  induction nodes with
  | @node e here below ih =>
    refine (everywhere_iff _).mpr ⟨encodable_asBytes here, fun child member ↦ ?_⟩
    rw [children_asBytes] at member
    obtain ⟨other, present, rfl⟩ := List.mem_map.mp member
    exact ih other present

/-! ## Evaluation -/

/-- The node at the type of a byte, if it has that of a truth value, over the same children. -/
def atByte : Expr → Expr
  | .input id ty value => .input id ty.asByte value
  | .const ty value => .const ty.asByte value
  | .unary op e ty value => .unary op e ty.asByte value
  | .binary op l r ty value => .binary op l r ty.asByte value
  | .compare op l r ty value => .compare op l r ty.asByte value
  | .pointer op l r size value => .pointer op l r size value
  | .slice e offset bytes value => .slice e offset bytes value
  | .assemble ty size parts value => .assemble ty.asByte size parts value

/-- On these inputs the conversion of a truth value keeps the byte that it is made of: the node
has the value that it would have as a byte. -/
def KeepsByte (inputs : List Value) (e : Expr) : Prop :=
  e.atByte.evaluate inputs = e.evaluate inputs

instance (inputs : List Value) (e : Expr) : Decidable (KeepsByte inputs e) :=
  inferInstanceAs (Decidable (_ = _))

theorem layParts_partsAsBytes (child : Expr → Value) (parts : List (BitVec 32 × Expr))
    (base : Value) :
    layParts child (partsAsBytes parts) base = layParts (fun e ↦ child e.asBytes) parts base := by
  simp only [layParts, partsAsBytes_eq_map, List.foldl_map, bits_asBytes]

/-- A node has in the variant the value of the node at the type of a byte over the values that its
children have there. -/
theorem nodeValue_asBytes (child : Expr → Value) (e : Expr) :
    e.asBytes.nodeValue child = e.atByte.nodeValue fun e ↦ child e.asBytes := by
  cases e <;> simp only [asBytes, atByte, nodeValue, bits_asBytes, layParts_partsAsBytes]

theorem evaluate_asBytes {inputs : List Value} {e : Expr}
    (kept : Everywhere (KeepsByte inputs) e) : e.asBytes.evaluate inputs = e.evaluate inputs := by
  induction kept with
  | @node e here below ih =>
    rw [← here]
    cases e with
    | input | const => rfl
    | unary | binary | compare | pointer | slice | assemble =>
      rw [evaluate_eq_nodeValue inputs rfl, evaluate_eq_nodeValue inputs rfl, nodeValue_asBytes]
      exact nodeValue_congr _ fun child member ↦ ih child member

end Expr

end Concolic
