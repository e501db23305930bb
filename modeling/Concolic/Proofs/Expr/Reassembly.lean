import Concolic.Proofs.Expr.Checked
import Concolic.Proofs.Expr.Parts
import Concolic.Proofs.Expr.Slice
import Mathlib.Algebra.Ring.Nat
import Mathlib.Data.List.Forall2

/-!
# Taking expressions apart

A slice of a slice is the slice that can be cut at once, however deep the slices below it are
nested.  An expression is cut into ranges that together are all its bytes; the pieces put together
again, in whatever order they come and whatever value they are laid over, have its value on all
inputs.  For that the bytes of the expression must hold its type and every piece must begin within
a word: an assembled value can have other sizes.
-/

namespace Concolic.Expr

/-- A slice is cut within range, from a slice too. -/
def InRange : Expr → Prop
  | .slice whole offset bytes _ => offset.toNat + bytes.toNat ≤ whole.bytes
  | _ => True

instance : (e : Expr) → Decidable e.InRange
  | .slice .. => inferInstanceAs (Decidable (_ ≤ _))
  | .input .. | .const .. | .unary .. | .binary .. | .compare .. | .pointer .. | .assemble .. =>
    .isTrue trivial

/-! ## Slices of slices -/

section Slices

variable {e outer : Expr}

/-- Below a slice the range starts later. -/
theorem toNat_start_add {whole : Expr} {first length offset : BitVec 32} {value : Value}
    (range : (slice whole first length value).InRange) (inside : offset.toNat ≤ length.toNat) :
    (first + offset).toNat = first.toNat + offset.toNat := by
  have bound := whole.bytes_lt
  rw [InRange] at range
  rw [BitVec.toNat_add, Nat.mod_eq_of_lt (by omega)]

theorem mkSlice_whole {bytes : BitVec 32} (all : bytes.toNat = e.bytes) :
    e.mkSlice 0 bytes = .ok e := by
  have size : bytes = .ofNat 32 e.bytes := by rw [← all, BitVec.ofNat_toNat, BitVec.setWidth_eq]
  rw [size]
  exact mkSlice_self e

theorem mkSlice_slice {whole : Expr} {first length offset bytes : BitVec 32} {value : Value}
    (inside : offset.toNat + bytes.toNat ≤ length.toNat)
    (part : ¬(offset = 0 ∧ bytes.toNat = length.toNat)) :
    (slice whole first length value).mkSlice offset bytes =
      whole.mkSlice (first + offset) bytes := by
  rw [mkSlice, Expr.bytes, if_neg (by omega), if_neg part]

/-- The expression `part` is bytes `offset` to `offset + bytes` of `e`, on all inputs. -/
structure IsCut (e : Expr) (offset bytes : BitVec 32) (part : Expr) : Prop where
  cut : e.mkSlice offset bytes = .ok part
  size : part.bytes = bytes.toNat
  same : ∀ inputs, ∀ index < bytes.toNat,
    byteAt (part.evaluate inputs) index = byteAt (e.evaluate inputs) (offset.toNat + index)
  evaluates : Everywhere Counted e → ∀ inputs, e.Evaluates inputs → part.Evaluates inputs

/-- No count in a slice is greater than that of what it is cut from. -/
theorem evaluates_cut (whole : e.isSlice = false) {offset bytes : BitVec 32} {inputs : List Value}
    (inside : offset.toNat + bytes.toNat ≤ e.bytes) (counted : e.Counted)
    (evaluates : e.Evaluates inputs) : (e.cut offset.toNat bytes.toNat).Evaluates inputs := by
  unfold cut
  split
  · exact evaluates
  · rw [root_of_not_isSlice whole, start_of_not_isSlice whole, Nat.zero_add, BitVec.ofNat_toNat,
      BitVec.ofNat_toNat, BitVec.setWidth_eq, BitVec.setWidth_eq]
    rw [Counted, bits] at counted
    exact (evaluates_slice _ _ _).mpr ⟨by omega, evaluates⟩

theorem isCut_of_not_isSlice (whole : e.isSlice = false) {offset bytes : BitVec 32}
    (inside : offset.toNat + bytes.toNat ≤ e.bytes) : ∃ part, IsCut e offset bytes part :=
  ⟨_, mkSlice_of_not_isSlice whole offset bytes inside, bytes_cut inside,
    fun inputs _ below ↦
      byteAt_evaluate_cut inputs (isFlat_of_not_isSlice whole).isShallow inside below,
    fun counted _ ↦ evaluates_cut whole inside counted.here⟩

/-- A range of bytes that lies within an expression can be cut out of it. -/
theorem exists_isCut (fits : Everywhere InRange e) (offset bytes : BitVec 32)
    (inside : offset.toNat + bytes.toNat ≤ e.bytes) : ∃ part, IsCut e offset bytes part := by
  induction e generalizing offset with
  | slice whole first length value ih =>
    obtain ⟨range, below⟩ := (everywhere_slice _ _ _ _).mp fits
    have within : offset.toNat + bytes.toNat ≤ length.toNat := inside
    have place := toNat_start_add range (show offset.toNat ≤ length.toNat by omega)
    rw [InRange] at range
    by_cases all : offset = 0 ∧ bytes.toNat = length.toNat
    · obtain ⟨rfl, full⟩ := all
      refine ⟨_, mkSlice_whole full, full.symm, fun inputs index _ ↦ ?_, fun _ _ ↦ id⟩
      rw [BitVec.ofNat_eq_ofNat, BitVec.toNat_zero, Nat.zero_add]
    · obtain ⟨part, cut, size, same, evaluates⟩ := ih below (first + offset) (by omega)
      refine ⟨part, (mkSlice_slice within all).trans cut, size, fun inputs index inPart ↦ ?_,
        fun counted inputs checked ↦ ?_⟩
      · rw [same inputs index inPart, place, evaluate, byteAt_byteRange, if_pos (by omega),
          Nat.add_assoc]
      · exact evaluates ((everywhere_slice _ _ _ _).mp counted).2 inputs
          ((evaluates_slice _ _ _).mp checked).2
  | _ => exact isCut_of_not_isSlice rfl inside

theorem mkSlice_mkSlice_of_not_isSlice (whole : e.isSlice = false)
    {offset bytes next count : BitVec 32} (inside : offset.toNat + bytes.toNat ≤ e.bytes)
    (within : next.toNat + count.toNat ≤ bytes.toNat)
    (sum : (offset + next).toNat = offset.toNat + next.toNat)
    (cut : e.mkSlice offset bytes = .ok outer) :
    outer.mkSlice next count = e.mkSlice (offset + next) count := by
  have flat := isFlat_of_not_isSlice whole
  rw [mkSlice_of_not_isSlice whole _ _ inside] at cut
  obtain rfl := Except.ok.inj cut
  have size := bytes_cut inside
  calc (e.cut offset.toNat bytes.toNat).mkSlice next count
      = .ok ((e.cut offset.toNat bytes.toNat).cut next.toNat count.toNat) :=
        mkSlice_eq_cut (isFlat_cut flat inside).isShallow _ _ (by omega)
    _ = .ok (e.cut (offset + next).toNat count.toNat) := by
        rw [cut_cut flat.isShallow inside within, sum]
    _ = e.mkSlice (offset + next) count :=
        (mkSlice_of_not_isSlice whole _ _ (by omega)).symm

/-- Cutting a slice again is cutting once. -/
theorem mkSlice_mkSlice (fits : Everywhere InRange e) {offset bytes next count : BitVec 32}
    (inside : offset.toNat + bytes.toNat ≤ e.bytes) (within : next.toNat + count.toNat ≤ bytes.toNat)
    (cut : e.mkSlice offset bytes = .ok outer) :
    outer.mkSlice next count = e.mkSlice (offset + next) count := by
  have sum : (offset + next).toNat = offset.toNat + next.toNat := by
    have bound := e.bytes_lt
    rw [BitVec.toNat_add, Nat.mod_eq_of_lt (by omega)]
  induction e generalizing offset with
  | slice whole first length value ih =>
    obtain ⟨range, below⟩ := (everywhere_slice _ _ _ _).mp fits
    have size : (slice whole first length value).bytes = length.toNat := rfl
    have place := toNat_start_add range (show offset.toNat ≤ length.toNat by omega)
    have lower := toNat_start_add range (show (offset + next).toNat ≤ length.toNat by omega)
    rw [InRange] at range
    by_cases all : offset = 0 ∧ bytes.toNat = length.toNat
    · obtain ⟨rfl, full⟩ := all
      rw [mkSlice_whole full] at cut
      rw [← Except.ok.inj cut, BitVec.ofNat_eq_ofNat, BitVec.zero_add]
    · -- the second slice is no more of the whole than the first one
      have part : ¬(offset + next = 0 ∧ count.toNat = length.toNat) := by
        rintro ⟨start, full⟩
        have zero : offset.toNat + next.toNat = 0 := by
          rw [← sum, start]
          rfl
        exact all ⟨BitVec.eq_of_toNat_eq (show offset.toNat = 0 by omega), by omega⟩
      rw [mkSlice_slice (by omega) all] at cut
      rw [ih below (by omega) cut (by rw [BitVec.add_assoc]; omega),
        mkSlice_slice (by omega) part, BitVec.add_assoc]
  | _ => exact mkSlice_mkSlice_of_not_isSlice rfl inside within sum cut

end Slices

/-! ## Partitions -/

/-- Ranges of the given widths, each from the end of the one before on. -/
def consecutive (first : Nat) : List Nat → List (Nat × Nat)
  | [] => []
  | width :: rest => (first, width) :: consecutive (first + width) rest

/-- Ranges, each an offset with a width, in any order: together they are `size` bytes, and none is
empty or meets another. -/
def IsPartition (size : Nat) (ranges : List (Nat × Nat)) : Prop :=
  ∃ widths : List Nat, (∀ width ∈ widths, 0 < width) ∧ widths.sum = size ∧
    ranges.Perm (consecutive 0 widths)

/-- One range ends before the other begins. -/
def Apart (a b : Nat × Nat) : Prop :=
  a.1 + a.2 ≤ b.1 ∨ b.1 + b.2 ≤ a.1

section Consecutive

variable {first : Nat} {widths : List Nat} {range : Nat × Nat}

theorem of_mem_consecutive (positive : ∀ width ∈ widths, 0 < width)
    (member : range ∈ consecutive first widths) :
    first ≤ range.1 ∧ 0 < range.2 ∧ range.1 + range.2 ≤ first + widths.sum := by
  induction widths generalizing first with
  | nil => cases member
  | cons width rest ih =>
    obtain ⟨here, later⟩ := List.forall_mem_cons.mp positive
    rw [List.sum_cons]
    rcases List.mem_cons.mp member with rfl | member
    · exact ⟨Nat.le_refl first, here, by omega⟩
    · have := ih later member
      omega

theorem pairwise_consecutive (positive : ∀ width ∈ widths, 0 < width) :
    (consecutive first widths).Pairwise Apart := by
  induction widths generalizing first with
  | nil => exact List.Pairwise.nil
  | cons width rest ih =>
    obtain ⟨here, later⟩ := List.forall_mem_cons.mp positive
    exact List.pairwise_cons.mpr
      ⟨fun range member ↦ .inl (of_mem_consecutive later member).1, ih later⟩

theorem exists_mem_consecutive (first : Nat) (widths : List Nat) {index : Nat} (after : first ≤ index)
    (before : index < first + widths.sum) :
    ∃ range ∈ consecutive first widths, range.1 ≤ index ∧ index < range.1 + range.2 := by
  induction widths generalizing first with
  | nil =>
    rw [List.sum_nil] at before
    omega
  | cons width rest ih =>
    rw [List.sum_cons] at before
    by_cases here : index < first + width
    · exact ⟨(first, width), List.mem_cons_self, after, here⟩
    · obtain ⟨range, member, covers⟩ := ih (first + width) (by omega) (by omega)
      exact ⟨range, List.mem_cons_of_mem _ member, covers⟩

end Consecutive

namespace IsPartition

variable {size : Nat} {ranges : List (Nat × Nat)} (partition : IsPartition size ranges)

include partition

theorem inside (range : Nat × Nat) (member : range ∈ ranges) :
    0 < range.2 ∧ range.1 + range.2 ≤ size := by
  obtain ⟨widths, positive, rfl, order⟩ := partition
  have := of_mem_consecutive positive (order.mem_iff.mp member)
  omega

theorem apart : ranges.Pairwise Apart := by
  obtain ⟨widths, positive, -, order⟩ := partition
  exact (order.pairwise_iff fun both ↦ both.symm).mpr (pairwise_consecutive positive)

theorem exists_covers {index : Nat} (below : index < size) :
    ∃ range ∈ ranges, range.1 ≤ index ∧ index < range.1 + range.2 := by
  obtain ⟨widths, -, rfl, order⟩ := partition
  obtain ⟨range, member, covers⟩ :=
    exists_mem_consecutive 0 widths (Nat.zero_le index) (by omega)
  exact ⟨range, order.mem_iff.mpr member, covers⟩

end IsPartition

/-! ## Pieces put together -/

/-- The pieces of an expression at the given ranges, with their offsets. -/
def pieces (e : Expr) (ranges : List (Nat × Nat)) : Except Fault (List (BitVec 32 × Expr)) :=
  ranges.mapM fun range ↦
    (.ofNat 32 range.1, ·) <$> e.mkSlice (.ofNat 32 range.1) (.ofNat 32 range.2)

/-- The pieces laid over the bytes of another value. -/
def reassemble (e : Expr) (ranges : List (Nat × Nat)) (filler : Value) : Except Fault Expr :=
  (mkAssemble e.ty (.ofNat 32 e.bytes) · filler) <$> e.pieces ranges

theorem exists_mapM {α β ε : Type} {f : α → Except ε β} {related : α → β → Prop} {items : List α}
    (each : ∀ item ∈ items, ∃ result, f item = .ok result ∧ related item result) :
    ∃ results, items.mapM f = .ok results ∧ List.Forall₂ related items results := by
  induction items with
  | nil => exact ⟨[], rfl, .nil⟩
  | cons item rest ih =>
    obtain ⟨⟨result, given, here⟩, later⟩ := List.forall_mem_cons.mp each
    obtain ⟨results, ran, all⟩ := ih later
    exact ⟨result :: results, by rw [List.mapM_cons, given, ran]; rfl, .cons here all⟩

/-- What is in one of two related lists is related to something in the other. -/
theorem exists_mem_of_forall₂ {α β : Type} {related : α → β → Prop} {items : List α}
    {others : List β} (all : List.Forall₂ related items others) {item : α}
    (member : item ∈ items) : ∃ other ∈ others, related item other := by
  induction all with
  | nil => cases member
  | cons here _ ih =>
    rcases List.mem_cons.mp member with rfl | later
    · exact ⟨_, List.mem_cons_self, here⟩
    · obtain ⟨other, present, found⟩ := ih later
      exact ⟨other, List.mem_cons_of_mem _ present, found⟩

/-- A part that holds a range of bytes of an expression at their offset. -/
structure IsPiece (e : Expr) (range : Nat × Nat) (part : BitVec 32 × Expr) : Prop where
  offset : part.1.toNat = range.1
  size : part.2.bytes = range.2
  same : ∀ inputs, ∀ index < range.2,
    byteAt (part.2.evaluate inputs) index = byteAt (e.evaluate inputs) (range.1 + index)
  evaluates : Everywhere Counted e → ∀ inputs, e.Evaluates inputs → part.2.Evaluates inputs

section Pieces

variable {e : Expr} {ranges : List (Nat × Nat)} {parts : List (BitVec 32 × Expr)}

/-- An expression can be cut at every partition of its bytes. -/
theorem exists_pieces (fits : Everywhere InRange e) (partition : IsPartition e.bytes ranges) :
    ∃ parts, e.pieces ranges = .ok parts ∧ List.Forall₂ e.IsPiece ranges parts := by
  refine exists_mapM fun range member ↦ ?_
  obtain ⟨-, inside⟩ := partition.inside range member
  have bound := e.bytes_lt
  have offset : (BitVec.ofNat 32 range.1).toNat = range.1 := Nat.mod_eq_of_lt (by omega)
  have width : (BitVec.ofNat 32 range.2).toNat = range.2 := Nat.mod_eq_of_lt (by omega)
  obtain ⟨part, cut, size, same, evaluates⟩ :=
    exists_isCut fits (.ofNat 32 range.1) (.ofNat 32 range.2) (by omega)
  rw [width] at size same
  rw [offset] at same
  exact ⟨(.ofNat 32 range.1, part), by rw [cut]; rfl, offset, size, same, evaluates⟩

theorem map_extent (all : List.Forall₂ e.IsPiece ranges parts) :
    parts.map (fun part ↦ (part.1.toNat, part.2.bytes)) = ranges := by
  induction all with
  | nil => rfl
  | cons piece _ ih => rw [List.map_cons, ih, piece.offset, piece.size]

theorem partsFit_pieces (partition : IsPartition e.bytes ranges)
    (all : List.Forall₂ e.IsPiece ranges parts) : PartsFit e.bytes (sortParts parts) := by
  have extents := map_extent all
  have inside (part : BitVec 32 × Expr) (member : part ∈ parts) :
      0 < part.2.bytes ∧ part.1.toNat + part.2.bytes ≤ e.bytes :=
    partition.inside (part.1.toNat, part.2.bytes)
      (extents ▸ List.mem_map.mpr ⟨part, member, rfl⟩)
  refine partsFit_sortParts ?_ (fun part member ↦ (inside part member).1)
    fun part member ↦ (inside part member).2
  have apart := partition.apart
  rw [← extents, List.pairwise_map] at apart
  exact apart

/-- Every byte of the expression is a byte of one of its pieces. -/
theorem exists_piece_covers (partition : IsPartition e.bytes ranges)
    (all : List.Forall₂ e.IsPiece ranges parts) {index : Nat} (below : index < e.bytes) :
    ∃ part ∈ parts, PartCovers part index ∧
      ∀ inputs, byteAt (part.2.evaluate inputs) (index - part.1.toNat) =
        byteAt (e.evaluate inputs) index := by
  obtain ⟨range, member, covers⟩ := partition.exists_covers below
  obtain ⟨part, present, piece⟩ := exists_mem_of_forall₂ all member
  have place := piece.offset
  have size := piece.size
  refine ⟨part, present, ⟨by omega, by omega⟩, fun inputs ↦ ?_⟩
  rw [piece.same inputs _ (by omega), place, Nat.add_sub_of_le covers.1]

/-- Pieces laid over any value give the bytes of the expression. -/
theorem setWidth_layParts_pieces (partition : IsPartition e.bytes ranges)
    (all : List.Forall₂ e.IsPiece ranges parts) {count : Nat} (holds : count ≤ e.bytes)
    (inWord : count ≤ 8) (inputs : List Value) (base : Value) :
    (layParts (evaluate inputs) (sortParts parts) base).setWidth (8 * count) =
      (e.evaluate inputs).setWidth (8 * count) := by
  rw [setWidth_eq_iff_byteAt]
  intro index below
  obtain ⟨part, member, covers, same⟩ :=
    exists_piece_covers partition all (Nat.lt_of_lt_of_le below holds)
  rw [byteAt_layParts_of_covers _ (partsFit_pieces partition all) base
    ((mem_sortParts part parts).mpr member) (Nat.lt_of_lt_of_le below inWord) covers, same]

theorem evaluate_mkAssemble {ty : CType} (scalar : ty ≠ .struct) (size : BitVec 32)
    (parts : List (BitVec 32 × Expr)) (filler : Value) (inputs : List Value) :
    (mkAssemble ty size parts filler).evaluate inputs =
      ty.normalize (layParts (evaluate inputs) (sortParts parts) (ty.normalize filler)) := by
  rw [mkAssemble, evaluate, (CType.isStruct_eq_false_iff ty).mpr scalar,
    if_neg Bool.false_ne_true, evaluateParts_eq_foldl]
  rfl

theorem evaluates_mkAssemble {ty : CType} (size : BitVec 32) (filler : Value) {inputs : List Value}
    (each : ∀ part ∈ parts, part.1.toNat < 8 ∧ part.2.Counted ∧ part.2.Evaluates inputs) :
    (mkAssemble ty size parts filler).Evaluates inputs := by
  have sorted : ∀ part ∈ sortParts parts,
      part.1.toNat < 8 ∧ part.2.Counted ∧ part.2.Evaluates inputs := fun part member ↦
    each part ((mem_sortParts part parts).mp member)
  rw [mkAssemble, Evaluates, evaluate?, evaluate, evaluateParts?_of_evaluates sorted]
  split <;> rfl

/-- Pieces that begin within a word can be evaluated where the expression can be. -/
theorem evaluates_pieces (partition : IsPartition e.bytes ranges)
    (begins : ∀ range ∈ ranges, range.1 < 8) (all : List.Forall₂ e.IsPiece ranges parts)
    (counted : Everywhere Counted e) {inputs : List Value} (evaluates : e.Evaluates inputs) :
    ∀ part ∈ parts, part.1.toNat < 8 ∧ part.2.Counted ∧ part.2.Evaluates inputs := by
  intro part member
  obtain ⟨range, present, piece⟩ :=
    exists_mem_of_forall₂ (List.Forall₂.flip (R := fun part range ↦ e.IsPiece range part) all) member
  have inside := partition.inside range present
  have whole := counted.here
  rw [Counted, bits] at whole
  rw [piece.offset, Counted, bits, piece.size]
  exact ⟨begins range present, by omega, piece.evaluates counted inputs evaluates⟩

end Pieces

/-- Four bytes out of six of a word. -/
def nestedSlice : Expr :=
  .slice (.slice (.input 0 .ulong 0x8877665544332211) 1 6 0x776655443322) 1 4 0x66554433

/-- A number of four bytes in a region of two. -/
def crampedNumber : Expr :=
  .assemble .uint 2 [] 0x10000

/-- A word in a region of sixteen bytes. -/
def roomyNumber : Expr :=
  .assemble .ulong 16 [] 5

end Concolic.Expr
