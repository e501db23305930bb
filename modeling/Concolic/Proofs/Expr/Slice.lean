import Concolic.Memory.Basic
import Concolic.Proofs.CType.Conversion
import Concolic.Proofs.Expr.Everywhere

/-!
# Cutting bytes out of expressions

Every expression is a range of bytes of its root, which is no slice.  Cutting a range out of a flat
expression always succeeds and moves the range within the same root, so that every byte keeps its
root and its place there, and with it its value on all inputs.
-/

namespace Concolic.Expr

def isSlice : Expr → Bool
  | .slice .. => true
  | _ => false

/-- The expression that a slice is cut from. -/
def root : Expr → Expr
  | .slice whole _ _ _ => whole
  | e => e

/-- The place of the first byte in the root. -/
def start : Expr → Nat
  | .slice _ offset _ _ => offset.toNat
  | _ => 0

/-- A slice is a proper part of an expression that is no slice. -/
def IsFlat : Expr → Prop
  | .slice whole offset bytes _ =>
    whole.isSlice = false ∧ offset.toNat + bytes.toNat ≤ whole.bytes ∧ bytes.toNat < whole.bytes
  | _ => True

/-- A slice is cut within range from an expression that is no slice, of which it may be all. -/
def IsShallow : Expr → Prop
  | .slice whole offset bytes _ =>
    whole.isSlice = false ∧ offset.toNat + bytes.toNat ≤ whole.bytes
  | _ => True

instance : (e : Expr) → Decidable e.IsFlat
  | .slice .. => inferInstanceAs (Decidable (_ ∧ _))
  | .input .. | .const .. | .unary .. | .binary .. | .compare .. | .pointer .. | .assemble .. =>
    .isTrue trivial

instance : (e : Expr) → Decidable e.IsShallow
  | .slice .. => inferInstanceAs (Decidable (_ ∧ _))
  | .input .. | .const .. | .unary .. | .binary .. | .compare .. | .pointer .. | .assemble .. =>
    .isTrue trivial

/-- Bytes `offset` to `offset + bytes` of a flat expression. -/
def cut (e : Expr) (offset bytes : Nat) : Expr :=
  if offset = 0 ∧ bytes = e.bytes then e
  else
    .slice e.root (.ofNat 32 (e.start + offset)) (.ofNat 32 bytes)
      (byteRange e.root.value (e.start + offset) bytes)

theorem bytes_lt (e : Expr) : e.bytes < 2 ^ 32 := by
  cases e with
  | slice whole offset bytes value => exact bytes.isLt
  | assemble ty size parts value => exact size.isLt
  | _ => exact Nat.lt_of_le_of_lt (CType.size_le_eight _) (by decide)

section Flat

variable {e : Expr} {offset bytes : Nat}

theorem root_of_not_isSlice (whole : e.isSlice = false) : e.root = e := by
  cases e <;> first | rfl | contradiction

theorem start_of_not_isSlice (whole : e.isSlice = false) : e.start = 0 := by
  cases e <;> first | rfl | contradiction

theorem isFlat_of_not_isSlice (whole : e.isSlice = false) : e.IsFlat := by
  cases e with
  | slice => contradiction
  | _ => trivial

theorem IsFlat.isShallow (flat : e.IsFlat) : e.IsShallow := by
  cases e with
  | slice whole offset bytes value => exact ⟨flat.1, flat.2.1⟩
  | _ => trivial

theorem IsFlat.root_not_isSlice (flat : e.IsFlat) : e.root.isSlice = false := by
  cases e <;> first | exact flat.1 | rfl

theorem IsShallow.start_add_bytes_le (shallow : e.IsShallow) :
    e.start + e.bytes ≤ e.root.bytes := by
  cases e with
  | slice whole offset bytes value => exact shallow.2
  | _ => simp [start, root]

/-- All bytes of an expression are the expression. -/
theorem mkSlice_self (e : Expr) : e.mkSlice (.ofNat 32 0) (.ofNat 32 e.bytes) = .ok e := by
  have size : (BitVec.ofNat 32 e.bytes).toNat = e.bytes := Nat.mod_eq_of_lt e.bytes_lt
  cases e <;> (unfold mkSlice; simp [size])

/-- What passes from a slice to its whole, and from an expression to new slices of it, passes to
what is cut. -/
theorem mkSlice_closed {motive : Expr → Prop} {e part : Expr} {offset bytes : BitVec 32}
    (inner : ∀ whole start length value, motive (.slice whole start length value) →
      motive whole)
    (slice : ∀ e offset bytes, motive e →
      motive (.slice e offset bytes (byteRange e.value offset.toNat bytes.toNat)))
    (here : motive e) (cut : e.mkSlice offset bytes = .ok part) : motive part := by
  induction e generalizing offset with
  | slice whole start length value ih =>
    unfold mkSlice at cut
    split at cut
    · contradiction
    · split at cut
      · cases cut
        exact here
      · exact ih (inner whole start length value here) cut
  | _ =>
    unfold mkSlice at cut
    split at cut
    · contradiction
    · split at cut
      · cases cut
        exact here
      · cases cut
        exact slice _ offset bytes here

theorem mkSlice_of_not_isSlice (whole : e.isSlice = false) (offset bytes : BitVec 32)
    (inside : offset.toNat + bytes.toNat ≤ e.bytes) :
    e.mkSlice offset bytes = .ok (e.cut offset.toNat bytes.toNat) := by
  have zero : offset = 0 ↔ offset.toNat = 0 := by
    rw [← BitVec.toNat_inj]
    rfl
  rw [cut, root_of_not_isSlice whole, start_of_not_isSlice whole, Nat.zero_add]
  cases e with
  | slice => contradiction
  | _ =>
    unfold mkSlice
    rw [if_neg (by omega)]
    simp only [zero, BitVec.ofNat_toNat, BitVec.setWidth_eq]
    split <;> rfl

/-- Cutting within range never fails. -/
theorem mkSlice_eq_cut (shallow : e.IsShallow) (offset bytes : BitVec 32)
    (inside : offset.toNat + bytes.toNat ≤ e.bytes) :
    e.mkSlice offset bytes = .ok (e.cut offset.toNat bytes.toNat) := by
  cases e with
  | slice whole first length value =>
    obtain ⟨bottom, fits⟩ := shallow
    have bound := whole.bytes_lt
    have size : (slice whole first length value).bytes = length.toNat := rfl
    have sum : (first + offset).toNat = first.toNat + offset.toNat := by
      rw [BitVec.toNat_add]
      exact Nat.mod_eq_of_lt (by omega)
    have zero : offset = 0 ↔ offset.toNat = 0 := by
      rw [← BitVec.toNat_inj]
      rfl
    unfold mkSlice
    rw [if_neg (by omega), cut, size]
    by_cases all : offset.toNat = 0 ∧ bytes.toNat = length.toNat
    · rw [if_pos ⟨zero.mpr all.1, all.2⟩, if_pos all]
    · rw [if_neg (by rwa [zero]), if_neg all]
      show whole.mkSlice (first + offset) bytes = _
      rw [mkSlice_of_not_isSlice bottom _ _ (by omega), cut, root_of_not_isSlice bottom,
        start_of_not_isSlice bottom, Nat.zero_add, sum, if_neg (by omega)]
      rfl
  | _ => exact mkSlice_of_not_isSlice rfl offset bytes inside

theorem bytes_cut (inside : offset + bytes ≤ e.bytes) : (e.cut offset bytes).bytes = bytes := by
  have bound := e.bytes_lt
  unfold cut
  split
  · next all => exact all.2.symm
  · exact Nat.mod_eq_of_lt (by omega)

theorem root_cut (e : Expr) (offset bytes : Nat) : (e.cut offset bytes).root = e.root := by
  unfold cut
  split <;> rfl

theorem start_cut (shallow : e.IsShallow) (inside : offset + bytes ≤ e.bytes) :
    (e.cut offset bytes).start = e.start + offset := by
  have bound := e.root.bytes_lt
  have fits := shallow.start_add_bytes_le
  unfold cut
  split
  · next all => rw [all.1, Nat.add_zero]
  · exact Nat.mod_eq_of_lt (by omega)

theorem isFlat_cut (flat : e.IsFlat) (inside : offset + bytes ≤ e.bytes) :
    (e.cut offset bytes).IsFlat := by
  have fits := flat.isShallow.start_add_bytes_le
  have bound := e.root.bytes_lt
  unfold cut
  split
  · exact flat
  · next part =>
    refine ⟨flat.root_not_isSlice, ?_⟩
    simp only [BitVec.toNat_ofNat]
    rw [Nat.mod_eq_of_lt (by omega), Nat.mod_eq_of_lt (by omega)]
    refine ⟨by omega, ?_⟩
    cases e with
    | slice whole first length value =>
      have proper := flat.2.2
      simp only [Expr.bytes, root] at inside proper ⊢
      omega
    | _ =>
      simp only [root] at part ⊢
      omega

/-- A slice of a slice is cut from the same root. -/
theorem cut_cut {first count : Nat} (shallow : e.IsShallow)
    (outer : offset + bytes ≤ e.bytes) (inner : first + count ≤ bytes) :
    (e.cut offset bytes).cut first count = e.cut (offset + first) count := by
  have size := bytes_cut outer
  by_cases all : first = 0 ∧ count = bytes
  · obtain ⟨rfl, rfl⟩ := all
    rw [cut, if_pos ⟨rfl, size.symm⟩, Nat.add_zero]
  · rw [cut, size, if_neg all, root_cut, start_cut shallow outer, cut, if_neg (by omega),
      Nat.add_assoc]

/-- What holds of all nodes of an expression and of the new slice holds of all nodes of the
result. -/
theorem everywhere_cut {condition : Expr → Prop} (all : Everywhere condition e)
    (slice : ¬(offset = 0 ∧ bytes = e.bytes) →
      condition (.slice e.root (.ofNat 32 (e.start + offset)) (.ofNat 32 bytes)
        (byteRange e.root.value (e.start + offset) bytes))) :
    Everywhere condition (e.cut offset bytes) := by
  unfold cut
  split
  · exact all
  · next part =>
    rw [everywhere_slice]
    refine ⟨slice part, ?_⟩
    cases e with
    | slice whole first length value => exact ((everywhere_slice _ _ _ _).mp all).2
    | _ => exact all

/-! ## Bytes -/

/-- The bytes of an expression are bytes of its root, on all inputs. -/
theorem byteAt_evaluate_eq_root (inputs : List Value) (e : Expr) {index : Nat}
    (inside : index < e.bytes) :
    byteAt (e.evaluate inputs) index = byteAt (e.root.evaluate inputs) (e.start + index) := by
  cases e with
  | slice whole first length value =>
    have within : index < length.toNat := inside
    rw [evaluate, byteAt_byteRange, if_pos within, root, start]
  | _ => simp [root, start]

theorem byteAt_evaluate_cut (inputs : List Value) (shallow : e.IsShallow)
    (inside : offset + bytes ≤ e.bytes) {index : Nat} (below : index < bytes) :
    byteAt ((e.cut offset bytes).evaluate inputs) index =
      byteAt (e.evaluate inputs) (offset + index) := by
  have size := bytes_cut inside
  rw [byteAt_evaluate_eq_root inputs _ (by omega), root_cut, start_cut shallow inside,
    byteAt_evaluate_eq_root inputs e (by omega), Nat.add_assoc]

/-- A slice records the bytes of what it is cut from. -/
def RecordsRoot : Expr → Prop
  | .slice whole offset bytes value => value = byteRange whole.value offset.toNat bytes.toNat
  | _ => True

instance : (e : Expr) → Decidable e.RecordsRoot
  | .slice .. => inferInstanceAs (Decidable (_ = _))
  | .input .. | .const .. | .unary .. | .binary .. | .compare .. | .pointer .. | .assemble .. =>
    .isTrue trivial

theorem byteAt_value_eq_root (records : e.RecordsRoot) {index : Nat} (inside : index < e.bytes) :
    byteAt e.value index = byteAt e.root.value (e.start + index) := by
  cases e with
  | slice whole first length value =>
    have recorded : value = byteRange whole.value first.toNat length.toNat := records
    have within : index < length.toNat := inside
    rw [Expr.value, recorded, byteAt_byteRange, if_pos within, root, start]
  | _ => simp [root, start]

theorem recordsRoot_cut (records : e.RecordsRoot) (shallow : e.IsShallow)
    (inside : offset + bytes ≤ e.bytes) : (e.cut offset bytes).RecordsRoot := by
  have fits := shallow.start_add_bytes_le
  have bound := e.root.bytes_lt
  unfold cut
  split
  · exact records
  · simp only [RecordsRoot, BitVec.toNat_ofNat]
    rw [Nat.mod_eq_of_lt (show e.start + offset < 2 ^ 32 by omega),
      Nat.mod_eq_of_lt (show bytes < 2 ^ 32 by omega)]

theorem byteAt_value_cut (records : e.RecordsRoot) (shallow : e.IsShallow)
    (inside : offset + bytes ≤ e.bytes) {index : Nat} (below : index < bytes) :
    byteAt (e.cut offset bytes).value index = byteAt e.value (offset + index) := by
  have size := bytes_cut inside
  rw [byteAt_value_eq_root (recordsRoot_cut records shallow inside) (by omega), root_cut,
    start_cut shallow inside, byteAt_value_eq_root records (by omega), Nat.add_assoc]

end Flat

end Concolic.Expr
