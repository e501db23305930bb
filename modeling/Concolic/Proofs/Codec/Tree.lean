import Concolic.Codec.Tree
import Concolic.Proofs.Codec.Reading
import Concolic.Proofs.Expr.Everywhere

/-!
# Reading back expressions

Every tree is read back from its bytes, whatever its nodes hold and whatever follows it, on a
machine that has room for the parts of its assemblies.  The fuel of the reader is spent one unit
for each level, and the bytes of a tree are at least as many as its nodes.
-/

namespace Concolic

open Codec Codec.Reader

/-- There is room for the parts of the node at once, and their number of bytes has 63 bits. -/
def Expr.HasRoom (room : Nat) : Expr → Prop
  | .assemble _ _ parts _ => parts.length ≤ room ∧ parts.length ≤ partBound
  | _ => True

instance (room : Nat) : (e : Expr) → Decidable (e.HasRoom room)
  | .assemble .. => inferInstanceAs (Decidable (_ ∧ _))
  | .input .. | .const .. | .unary .. | .binary .. | .compare .. | .pointer .. | .slice .. =>
    .isTrue trivial

namespace Codec

theorem takes_reserveParts {room count : Nat} (inRoom : count ≤ room)
    (inBound : count ≤ partBound) : (reserveParts room count).Takes [] () := by
  rw [reserveParts, if_neg (by omega), if_neg (by omega)]
  exact takes_pure ()

namespace Format

theorem returns_ctype (ty : CType) : ctype.Returns ty :=
  returns_oneOf (by cases ty <;> decide) (by decide)

theorem returns_unaryOp (op : UnaryOp) : unaryOp.Returns op :=
  returns_oneOf (by cases op <;> decide) (by decide)

theorem returns_binaryOp (op : BinaryOp) : binaryOp.Returns op :=
  returns_oneOf (by cases op <;> decide) (by decide)

theorem returns_compareOp (op : CompareOp) : compareOp.Returns op :=
  returns_oneOf (by cases op <;> decide) (by decide)

theorem returns_pointerOp (op : PointerOp) : pointerOp.Returns op :=
  returns_oneOf (by cases op <;> decide) (by decide)

end Format

open Format

/-- Every node takes a byte for its kind. -/
theorem size_le_length_encodeTree (e : Expr) : e.size ≤ (encodeTree e).length := by
  have kind (index : Nat) := length_encodeNumber_pos index
  induction e with
  | input | const =>
    simp only [Expr.size, encodeTree, List.length_append]
    have := kind 0
    have := kind 1
    omega
  | unary op e ty value ih =>
    simp only [Expr.size, encodeTree, List.length_append]
    have := kind 2
    omega
  | binary op l r ty value ihl ihr | compare op l r ty value ihl ihr
  | pointer op l r size value ihl ihr =>
    simp only [Expr.size, encodeTree, List.length_append]
    have := kind 3
    have := kind 4
    have := kind 5
    omega
  | slice e offset bytes value ih =>
    simp only [Expr.size, encodeTree, List.length_append]
    have := kind 6
    omega
  | assemble ty size parts value ih =>
    have parts_le : Expr.sizeOfParts parts ≤ (encodeParts parts).length := by
      clear value
      induction parts with
      | nil => exact Nat.le_refl 0
      | cons part rest ihRest =>
        obtain ⟨here, later⟩ := List.forall_mem_cons.mp ih
        have := ihRest later
        simp only [Expr.sizeOfParts, encodeParts, List.length_append]
        omega
    simp only [Expr.size, encodeTree, List.length_append]
    have := kind 7
    omega

theorem size_le_sizeOfParts {parts : List (BitVec 32 × Expr)} {part : BitVec 32 × Expr}
    (member : part ∈ parts) : part.2.size ≤ Expr.sizeOfParts parts := by
  induction parts with
  | nil => cases member
  | cons first rest ih =>
    rw [Expr.sizeOfParts]
    rcases List.mem_cons.mp member with rfl | later
    · exact Nat.le_add_right _ _
    · exact Nat.le_trans (ih later) (Nat.le_add_left _ _)

theorem size_lt_of_child {e child : Expr} (member : child ∈ e.children) : child.size < e.size := by
  cases e with
  | assemble ty size parts value =>
    obtain ⟨part, present, rfl⟩ := List.mem_map.mp member
    have among := size_le_sizeOfParts present
    rw [Expr.size]
    omega
  | _ => grind [Expr.children, Expr.size]

/-- Fuel for a tree is one unit more than fuel for the trees below it. -/
theorem exists_fuel {e : Expr} {fuel : Nat} (enough : e.size ≤ fuel) :
    ∃ less, fuel = less + 1 ∧ ∀ child ∈ e.children, child.size ≤ less := by
  have positive : 0 < e.size := by
    cases e <;> simp only [Expr.size] <;> omega
  refine ⟨fuel - 1, by omega, fun child member ↦ ?_⟩
  have := size_lt_of_child member
  omega

/-- A tree is read back from its bytes with fuel for each of its nodes. -/
theorem takes_readTree {room : Nat} {e : Expr} (fits : Expr.Everywhere (Expr.HasRoom room) e)
    {fuel : Nat} (enough : e.size ≤ fuel) : (readTree room fuel).Takes (encodeTree e) e := by
  have kind {index : Nat} (known : index < 8) :
      (readVariant 8).Takes (encodeNumber index) index := takes_readVariant known (by decide)
  induction e using Expr.childInduction generalizing fuel with
  | node e ih =>
    -- this level takes one unit, and what is left is enough for each child by itself
    obtain ⟨fuel, rfl, lower⟩ := exists_fuel enough
    have child (e' : Expr) (member : e' ∈ e.children) :
        (readTree room fuel).Takes (encodeTree e') e' :=
      ih e' member (fits.child member) (lower e' member)
    rw [readTree]
    cases e with
    | input id ty value =>
      simp only [encodeTree, List.append_assoc]
      exact (kind (by decide : 0 < 8)).bind <|
        (returns_word32 id).bind <| (returns_ctype ty).bind <|
        (returns_signed64 value).finish rfl
    | const ty value =>
      simp only [encodeTree, List.append_assoc]
      exact (kind (by decide : 1 < 8)).bind <|
        (returns_ctype ty).bind <| (returns_signed64 value).finish rfl
    | unary op e ty value =>
      simp only [encodeTree, List.append_assoc]
      exact (kind (by decide : 2 < 8)).bind <|
        (returns_unaryOp op).bind <| (child e (by simp [Expr.children])).bind <|
        (returns_ctype ty).bind <| (returns_signed64 value).finish rfl
    | binary op l r ty value =>
      simp only [encodeTree, List.append_assoc]
      exact (kind (by decide : 3 < 8)).bind <|
        (returns_binaryOp op).bind <| (child l (by simp [Expr.children])).bind <|
        (child r (by simp [Expr.children])).bind <|
        (returns_ctype ty).bind <| (returns_signed64 value).finish rfl
    | compare op l r ty value =>
      simp only [encodeTree, List.append_assoc]
      exact (kind (by decide : 4 < 8)).bind <|
        (returns_compareOp op).bind <| (child l (by simp [Expr.children])).bind <|
        (child r (by simp [Expr.children])).bind <|
        (returns_ctype ty).bind <| (returns_signed64 value).finish rfl
    | pointer op l r size value =>
      simp only [encodeTree, List.append_assoc]
      exact (kind (by decide : 5 < 8)).bind <|
        (returns_pointerOp op).bind <| (child l (by simp [Expr.children])).bind <|
        (child r (by simp [Expr.children])).bind <|
        (returns_word64 size).bind <| (returns_signed64 value).finish rfl
    | slice e offset bytes value =>
      simp only [encodeTree, List.append_assoc]
      exact (kind (by decide : 6 < 8)).bind <|
        (child e (by simp [Expr.children])).bind <| (returns_word32 offset).bind <|
        (returns_word32 bytes).bind <| (returns_signed64 value).finish rfl
    | assemble ty size parts value =>
      obtain ⟨inRoom, inBound⟩ : parts.length ≤ room ∧ parts.length ≤ partBound := fits.here
      have countable : parts.length < 2 ^ 64 := Nat.lt_of_le_of_lt inBound (by decide)
      have each : ∀ part ∈ parts, Takes
          (do return (← word32.read, ← readTree room fuel) : Reader (BitVec 32 × Expr))
          (word32.encode part.1 ++ encodeTree part.2) part := fun part member ↦
        (returns_word32 part.1).bind ((child part.2 (List.mem_map_of_mem member)).finish rfl)
      simp only [encodeTree, encodeParts_eq_flatMap, List.append_assoc]
      exact (kind (by decide : 7 < 8)).bind <|
        (returns_ctype ty).bind <| (returns_word32 size).bind <|
        (takes_readNumber countable).bind <| (takes_reserveParts inRoom inBound).bind <|
        (takes_many each).bind <| (returns_signed64 value).finish rfl

theorem Format.returns_tree {room : Nat} {e : Expr}
    (fits : Expr.Everywhere (Expr.HasRoom room) e) : (Format.tree room).Returns e := by
  intro rest
  have enough : e.size ≤ (encodeTree e ++ rest).length := by
    have := size_le_length_encodeTree e
    rw [List.length_append]
    omega
  exact takes_readTree fits enough rest

end Codec

end Concolic
