import Concolic.Proofs.Expr.Everywhere
import Concolic.Proofs.Word.Bytes

/-!
# Parts of assembled values

Parts fit into a region when they are in order, not empty, apart from each other and inside.  Laid
over a value such parts replace exactly the bytes that they cover.
-/

namespace Concolic

/-- The part holds byte `index` of the region. -/
def PartCovers (part : BitVec 32 × Expr) (index : Nat) : Prop :=
  part.1.toNat ≤ index ∧ index < part.1.toNat + part.2.bytes

instance (part : BitVec 32 × Expr) (index : Nat) : Decidable (PartCovers part index) :=
  inferInstanceAs (Decidable (_ ∧ _))

/-- Parts in the order of their offsets, none empty, apart from each other and inside the
region. -/
structure PartsFit (size : Nat) (parts : List (BitVec 32 × Expr)) : Prop where
  ordered : parts.Pairwise fun a b ↦ a.1.toNat + a.2.bytes ≤ b.1.toNat
  nonempty : ∀ part ∈ parts, 0 < part.2.bytes
  inside : ∀ part ∈ parts, part.1.toNat + part.2.bytes ≤ size

instance (size : Nat) (parts : List (BitVec 32 × Expr)) : Decidable (PartsFit size parts) :=
  decidable_of_iff
    (parts.Pairwise (fun a b ↦ a.1.toNat + a.2.bytes ≤ b.1.toNat) ∧
      (∀ part ∈ parts, 0 < part.2.bytes) ∧ ∀ part ∈ parts, part.1.toNat + part.2.bytes ≤ size)
    ⟨fun ⟨ordered, nonempty, inside⟩ ↦ ⟨ordered, nonempty, inside⟩,
      fun ⟨ordered, nonempty, inside⟩ ↦ ⟨ordered, nonempty, inside⟩⟩

namespace PartsFit

variable {size : Nat} {part : BitVec 32 × Expr} {parts : List (BitVec 32 × Expr)}

theorem nil (size : Nat) : PartsFit size [] :=
  ⟨List.Pairwise.nil, by simp, by simp⟩

theorem tail (fit : PartsFit size (part :: parts)) : PartsFit size parts :=
  ⟨(List.pairwise_cons.mp fit.ordered).2, (List.forall_mem_cons.mp fit.nonempty).2,
    (List.forall_mem_cons.mp fit.inside).2⟩

/-- The first part ends before all others. -/
theorem head_le (fit : PartsFit size (part :: parts)) {later : BitVec 32 × Expr}
    (member : later ∈ parts) : part.1.toNat + part.2.bytes ≤ later.1.toNat :=
  (List.pairwise_cons.mp fit.ordered).1 later member

theorem filter (fit : PartsFit size parts) (keep : BitVec 32 × Expr → Bool) :
    PartsFit size (parts.filter keep) :=
  ⟨fit.ordered.filter keep, fun part member ↦ fit.nonempty part (List.mem_filter.mp member).1,
    fun part member ↦ fit.inside part (List.mem_filter.mp member).1⟩

/-- At most one part holds a byte. -/
theorem eq_of_covers (fit : PartsFit size parts) {a b : BitVec 32 × Expr} (here : a ∈ parts)
    (there : b ∈ parts) {index : Nat} (first : PartCovers a index) (second : PartCovers b index) :
    a = b := by
  induction parts with
  | nil => simp at here
  | cons head rest ih =>
    unfold PartCovers at first second
    rcases List.mem_cons.mp here with rfl | inRest <;>
      rcases List.mem_cons.mp there with rfl | inRest'
    · rfl
    · have := fit.head_le inRest'
      omega
    · have := fit.head_le inRest
      omega
    · exact ih fit.tail inRest inRest'

end PartsFit

namespace Expr

theorem mem_insertPart (here part : BitVec 32 × Expr) (parts : List (BitVec 32 × Expr)) :
    part ∈ insertPart here parts ↔ part = here ∨ part ∈ parts := by
  induction parts with
  | nil => simp [insertPart]
  | cons first rest ih =>
    unfold insertPart
    split
    · simp
    · rw [List.mem_cons, ih, List.mem_cons, or_left_comm]

theorem mem_sortParts (part : BitVec 32 × Expr) (parts : List (BitVec 32 × Expr)) :
    part ∈ sortParts parts ↔ part ∈ parts := by
  induction parts with
  | nil => simp [sortParts]
  | cons first rest ih =>
    rw [List.mem_cons, ← ih]
    exact mem_insertPart first part (sortParts rest)

theorem insertPart_perm (here : BitVec 32 × Expr) (parts : List (BitVec 32 × Expr)) :
    (insertPart here parts).Perm (here :: parts) := by
  induction parts with
  | nil => exact .refl _
  | cons first rest ih =>
    unfold insertPart
    split
    · exact .refl _
    · exact (ih.cons first).trans (.swap here first rest)

theorem sortParts_perm (parts : List (BitVec 32 × Expr)) : (sortParts parts).Perm parts := by
  induction parts with
  | nil => exact .refl _
  | cons first rest ih => exact (insertPart_perm first (sortParts rest)).trans (ih.cons first)

theorem pairwise_insertPart (here : BitVec 32 × Expr) {parts : List (BitVec 32 × Expr)}
    (sorted : parts.Pairwise (·.1 ≤ ·.1)) : (insertPart here parts).Pairwise (·.1 ≤ ·.1) := by
  induction parts with
  | nil => exact List.pairwise_singleton _ _
  | cons first rest ih =>
    obtain ⟨least, others⟩ := List.pairwise_cons.mp sorted
    unfold insertPart
    split
    · next below =>
      refine List.pairwise_cons.mpr ⟨fun part member ↦ ?_, sorted⟩
      rcases List.mem_cons.mp member with rfl | later
      · exact below
      · exact BitVec.le_trans below (least part later)
    · next above =>
      refine List.pairwise_cons.mpr ⟨fun part member ↦ ?_, ih others⟩
      rcases (mem_insertPart here part rest).mp member with rfl | later
      · exact (BitVec.le_total first.1 part.1).resolve_right above
      · exact least part later

theorem pairwise_sortParts (parts : List (BitVec 32 × Expr)) :
    (sortParts parts).Pairwise (·.1 ≤ ·.1) := by
  induction parts with
  | nil => exact List.Pairwise.nil
  | cons first rest ih => exact pairwise_insertPart first ih

/-- Parts that lie apart fit once they are sorted. -/
theorem partsFit_sortParts {size : Nat} {parts : List (BitVec 32 × Expr)}
    (apart : parts.Pairwise fun a b ↦
      a.1.toNat + a.2.bytes ≤ b.1.toNat ∨ b.1.toNat + b.2.bytes ≤ a.1.toNat)
    (nonempty : ∀ part ∈ parts, 0 < part.2.bytes)
    (inside : ∀ part ∈ parts, part.1.toNat + part.2.bytes ≤ size) :
    PartsFit size (sortParts parts) where
  ordered := by
    have still := ((sortParts_perm parts).pairwise_iff fun both ↦ both.symm).mpr apart
    refine ((pairwise_sortParts parts).and still).imp_of_mem fun {a b} here _ ⟨before, either⟩ ↦ ?_
    have some_bytes := nonempty a ((mem_sortParts a parts).mp here)
    have other_bytes := nonempty b ((mem_sortParts b parts).mp ‹_›)
    rw [BitVec.le_def] at before
    omega
  nonempty part member := nonempty part ((mem_sortParts part parts).mp member)
  inside part member := inside part ((mem_sortParts part parts).mp member)

/-- Sorting leaves parts that are in order as they are. -/
theorem sortParts_of_ordered {parts : List (BitVec 32 × Expr)}
    (ordered : parts.Pairwise fun a b ↦ a.1.toNat + a.2.bytes ≤ b.1.toNat) :
    sortParts parts = parts := by
  induction parts with
  | nil => rfl
  | cons part rest ih =>
    obtain ⟨first, others⟩ := List.pairwise_cons.mp ordered
    rw [show sortParts (part :: rest) = insertPart part (sortParts rest) from rfl, ih others]
    cases rest with
    | nil => rfl
    | cons next rest =>
      have before := first next (by simp)
      rw [insertPart, if_pos (BitVec.le_def.mpr (by omega))]

/-- A byte under no part stays what it was. -/
theorem byteAt_layParts_of_not_covers (child : Expr → Value) {parts : List (BitVec 32 × Expr)}
    (base : Value) {index : Nat} (inWord : index < 8)
    (apart : ∀ part ∈ parts, ¬PartCovers part index) :
    byteAt (layParts child parts base) index = byteAt base index := by
  induction parts generalizing base with
  | nil => rfl
  | cons part rest ih =>
    rw [List.forall_mem_cons] at apart
    calc byteAt (layParts child (part :: rest) base) index
        = byteAt (layParts child rest
            (overlay base part.1.toNat (8 * part.2.bytes) (child part.2))) index := rfl
      _ = byteAt (overlay base part.1.toNat (8 * part.2.bytes) (child part.2)) index :=
          ih _ apart.2
      _ = byteAt base index := by
          rw [byteAt_overlay _ _ _ _ _ inWord]
          exact if_neg apart.1

/-- A byte under a part is the byte of that part. -/
theorem byteAt_layParts_of_covers (child : Expr → Value) {size : Nat}
    {parts : List (BitVec 32 × Expr)} (fit : PartsFit size parts) (base : Value)
    {part : BitVec 32 × Expr} (member : part ∈ parts) {index : Nat} (inWord : index < 8)
    (covers : PartCovers part index) :
    byteAt (layParts child parts base) index =
      byteAt (child part.2) (index - part.1.toNat) := by
  induction parts generalizing base with
  | nil => simp at member
  | cons head rest ih =>
    rcases List.mem_cons.mp member with rfl | later
    · have apart : ∀ other ∈ rest, ¬PartCovers other index := by
        intro other present
        have := fit.head_le present
        unfold PartCovers at covers ⊢
        omega
      calc byteAt (layParts child (part :: rest) base) index
          = byteAt (overlay base part.1.toNat (8 * part.2.bytes) (child part.2)) index :=
            byteAt_layParts_of_not_covers child _ inWord apart
        _ = byteAt (child part.2) (index - part.1.toNat) := by
            rw [byteAt_overlay _ _ _ _ _ inWord]
            exact if_pos covers
    · exact ih fit.tail _ later

end Expr

end Concolic
