import Concolic.Memory.Basic
import Concolic.Proofs.Expr.Slice

/-!
# The layout of symbolic memory

Bindings are flat, not empty, end before the last address and stay apart from each other.  Under
these conditions every byte of memory belongs to at most one binding and has an origin: a root
expression and the place of the byte in it.  Inserting into free space and erasing a binding keep
the layout, and change the origins of the bytes concerned alone.
-/

namespace Concolic

/-- A byte of an expression that is no slice. -/
structure Origin where
  root : Expr
  index : Nat

def Expr.origin (e : Expr) (index : Nat) : Origin :=
  ⟨e.root, e.start + index⟩

theorem Expr.origin_cut {e : Expr} {offset bytes : Nat} (flat : e.IsFlat)
    (inside : offset + bytes ≤ e.bytes) (index : Nat) :
    (e.cut offset bytes).origin index = e.origin (offset + index) := by
  rw [origin, origin, root_cut, start_cut flat.isShallow inside, Nat.add_assoc]

/-- The byte at `byte` belongs to an expression bound to `start`. -/
def Spans (start : Address) (e : Expr) (byte : Nat) : Prop :=
  start.toNat ≤ byte ∧ byte < start.toNat + e.bytes

instance (start : Address) (e : Expr) (byte : Nat) : Decidable (Spans start e byte) :=
  inferInstanceAs (Decidable (_ ∧ _))

/-- The bytes from `first` up to `past`. -/
def InRange (first past byte : Nat) : Prop :=
  first ≤ byte ∧ byte < past

instance (first past byte : Nat) : Decidable (InRange first past byte) :=
  inferInstanceAs (Decidable (_ ∧ _))

theorem Address.toNat_add_ofNat {address : Address} {count : Nat}
    (fits : address.toNat + count < 2 ^ 64) :
    (address + .ofNat 64 count).toNat = address.toNat + count := by
  have low : (BitVec.ofNat 64 count).toNat = count := by
    rw [BitVec.toNat_ofNat, Nat.mod_eq_of_lt (by omega)]
  rw [BitVec.toNat_add_of_lt (by rwa [low]), low]

theorem Address.toNat_add_setWidth {address : Address} {offset : BitVec 32}
    (fits : address.toNat + offset.toNat < 2 ^ 64) :
    (address + offset.setWidth 64).toNat = address.toNat + offset.toNat := by
  have low : (offset.setWidth 64).toNat = offset.toNat :=
    BitVec.toNat_setWidth_of_le (by decide)
  rw [BitVec.toNat_add_of_lt (by rwa [low]), low]

abbrev Cells := WordMap 64 Expr

/-- Bindings have bytes, end before the last address and share no byte. -/
structure Ranges (cells : Cells) : Prop where
  nonempty : ∀ start e, cells.get? start = some e → 0 < e.bytes
  inside : ∀ start e, cells.get? start = some e → start.toNat + e.bytes < 2 ^ 64
  apart : ∀ start e other f, cells.get? start = some e → cells.get? other = some f →
    start.toNat < other.toNat → start.toNat + e.bytes ≤ other.toNat

structure Layout (cells : Cells) : Prop extends ranges : Ranges cells where
  flat : ∀ start e, cells.get? start = some e → e.IsFlat

/-- The origin of the byte at an address, if a binding covers it. -/
def Cells.origin? (cells : Cells) (byte : Nat) : Option Origin :=
  (cells.entries.find? fun cell ↦ decide (Spans cell.1 cell.2 byte)).map
    fun cell ↦ cell.2.origin (byte - cell.1.toNat)

instance (cells : Cells) : Decidable (Ranges cells) :=
  decidable_of_iff
    ((∀ cell ∈ cells.entries, 0 < cell.2.bytes ∧ cell.1.toNat + cell.2.bytes < 2 ^ 64) ∧
      ∀ a ∈ cells.entries, ∀ b ∈ cells.entries, a.1.toNat < b.1.toNat →
        a.1.toNat + a.2.bytes ≤ b.1.toNat) <| by
    simp only [Prod.forall, cells.mem_entries_iff]
    constructor
    · exact fun ⟨each, apart⟩ ↦ ⟨fun start e found ↦ (each start e found).1,
        fun start e found ↦ (each start e found).2,
        fun start e other f first second ↦ apart start e first other f second⟩
    · exact fun ranges ↦ ⟨fun start e found ↦ ⟨ranges.nonempty start e found,
          ranges.inside start e found⟩,
        fun start e first other f second ↦ ranges.apart start e other f first second⟩

theorem layout_empty : Layout .empty := by
  refine ⟨⟨?_, ?_, ?_⟩, ?_⟩ <;> intro start e <;> simp

/-- At most one binding covers a byte. -/
theorem Ranges.eq_of_spans {cells : Cells} (ranges : Ranges cells) {start other : Address}
    {e f : Expr} {byte : Nat} (first : cells.get? start = some e)
    (second : cells.get? other = some f) (here : Spans start e byte)
    (there : Spans other f byte) : start = other ∧ e = f := by
  have same : start = other := by
    apply BitVec.eq_of_toNat_eq
    unfold Spans at here there
    rcases Nat.lt_trichotomy start.toNat other.toNat with below | equal | above
    · have := ranges.apart _ _ _ _ first second below
      omega
    · exact equal
    · have := ranges.apart _ _ _ _ second first above
      omega
  refine ⟨same, ?_⟩
  rw [same, second] at first
  exact (Option.some.inj first).symm

namespace Layout

variable {cells : Cells} {start : Address} {e : Expr} {byte : Nat}

theorem origin?_eq_none_iff (cells : Cells) (byte : Nat) :
    cells.origin? byte = none ↔
      ∀ start e, cells.get? start = some e → ¬Spans start e byte := by
  simp only [Cells.origin?, Option.map_eq_none_iff, List.find?_eq_none, decide_eq_true_eq]
  exact ⟨fun none start e found ↦ none (start, e) ((cells.mem_entries_iff start e).mpr found),
    fun none cell member ↦ none cell.1 cell.2 ((cells.mem_entries_iff _ _).mp member)⟩

theorem exists_of_origin? {origin : Origin} (found : cells.origin? byte = some origin) :
    ∃ start e, cells.get? start = some e ∧ Spans start e byte ∧
      origin = e.origin (byte - start.toNat) := by
  obtain ⟨⟨start, e⟩, here, rfl⟩ := Option.map_eq_some_iff.mp found
  refine ⟨start, e, (cells.mem_entries_iff start e).mp (List.mem_of_find?_eq_some here), ?_, rfl⟩
  simpa using List.find?_some here

theorem origin?_of_spans (layout : Layout cells) (found : cells.get? start = some e)
    (spans : Spans start e byte) :
    cells.origin? byte = some (e.origin (byte - start.toNat)) := by
  cases here : cells.origin? byte with
  | none => exact absurd spans ((origin?_eq_none_iff cells byte).mp here start e found)
  | some origin =>
    obtain ⟨other, f, present, covers, rfl⟩ := exists_of_origin? here
    obtain ⟨rfl, rfl⟩ := layout.ranges.eq_of_spans found present spans covers
    rfl

/-- The first byte of a binding is covered. -/
theorem get?_eq_none (layout : Layout cells) (free : cells.origin? start.toNat = none) :
    cells.get? start = none := by
  cases found : cells.get? start with
  | none => rfl
  | some e =>
    have nonempty := layout.nonempty start e found
    have spans : Spans start e start.toNat := ⟨Nat.le_refl _, by omega⟩
    exact absurd spans ((origin?_eq_none_iff cells start.toNat).mp free start e found)

/-! ## Erasing -/

theorem erase (layout : Layout cells) (start : Address) : Layout (cells.erase start) := by
  have old {other : Address} {f : Expr} (found : (cells.erase start).get? other = some f) :
      cells.get? other = some f := by
    rw [WordMap.get?_erase] at found
    split at found
    · contradiction
    · exact found
  refine ⟨⟨?_, ?_, ?_⟩, ?_⟩
  · exact fun other f found ↦ layout.nonempty other f (old found)
  · exact fun other f found ↦ layout.inside other f (old found)
  · exact fun first f second g foundFirst foundSecond ↦
      layout.apart first f second g (old foundFirst) (old foundSecond)
  · exact fun other f found ↦ layout.flat other f (old found)

/-- Erasing a binding frees its bytes. -/
theorem origin?_erase (layout : Layout cells) (found : cells.get? start = some e) (byte : Nat) :
    Cells.origin? (cells.erase start) byte =
      if Spans start e byte then none else cells.origin? byte := by
  split
  · next spans =>
    rw [origin?_eq_none_iff]
    intro other f present covers
    rw [WordMap.get?_erase] at present
    split at present
    · contradiction
    · next different =>
      exact different (layout.ranges.eq_of_spans found present spans covers).1.symm
  · next apart =>
    cases here : cells.origin? byte with
    | none =>
      rw [origin?_eq_none_iff] at here ⊢
      intro other f present
      rw [WordMap.get?_erase] at present
      split at present
      · contradiction
      · exact here other f present
    | some origin =>
      obtain ⟨other, f, present, covers, rfl⟩ := exists_of_origin? here
      refine (layout.erase start).origin?_of_spans ?_ covers
      rw [WordMap.get?_erase, if_neg]
      · exact present
      · rintro rfl
        rw [found] at present
        cases present
        exact apart covers

/-! ## Inserting into free space -/

/-- No binding covers a byte that an expression at `start` would cover. -/
def Free (cells : Cells) (start : Address) (e : Expr) : Prop :=
  ∀ byte, Spans start e byte → cells.origin? byte = none

/-- An expression that can be bound to an address. -/
structure Fits (start : Address) (e : Expr) : Prop where
  flat : e.IsFlat
  nonempty : 0 < e.bytes
  inside : start.toNat + e.bytes < 2 ^ 64

theorem free_apart (layout : Layout cells) (fits : Fits start e) (free : Free cells start e)
    {other : Address} {f : Expr} (found : cells.get? other = some f) :
    start.toNat + e.bytes ≤ other.toNat ∨ other.toNat + f.bytes ≤ start.toNat := by
  have nonempty := layout.nonempty other f found
  have positive := fits.nonempty
  refine Decidable.byContradiction fun overlap ↦ ?_
  have common : Spans start e (max start.toNat other.toNat) ∧
      Spans other f (max start.toNat other.toNat) := by
    unfold Spans
    omega
  exact (origin?_eq_none_iff ..).mp (free _ common.1) other f found common.2

theorem insert (layout : Layout cells) (fits : Fits start e) (free : Free cells start e) :
    Layout (cells.insert start e) := by
  have cases {other : Address} {f : Expr} (found : (cells.insert start e).get? other = some f) :
      other = start ∧ f = e ∨ cells.get? other = some f := by
    rw [WordMap.get?_insert] at found
    split at found
    · next same => exact .inl ⟨same, (Option.some.inj found).symm⟩
    · exact .inr found
  refine ⟨⟨?_, ?_, ?_⟩, ?_⟩
  · intro other f found
    rcases cases found with ⟨rfl, rfl⟩ | old
    · exact fits.nonempty
    · exact layout.nonempty other f old
  · intro other f found
    rcases cases found with ⟨rfl, rfl⟩ | old
    · exact fits.inside
    · exact layout.inside other f old
  · intro first f second g foundFirst foundSecond below
    have positive := fits.nonempty
    rcases cases foundFirst with ⟨rfl, rfl⟩ | oldFirst <;>
      rcases cases foundSecond with ⟨rfl, rfl⟩ | oldSecond
    · omega
    · have apart := layout.free_apart fits free oldSecond
      omega
    · have apart := layout.free_apart fits free oldFirst
      omega
    · exact layout.apart _ _ _ _ oldFirst oldSecond below
  · intro other f found
    rcases cases found with ⟨rfl, rfl⟩ | old
    · exact fits.flat
    · exact layout.flat other f old

theorem origin?_insert (layout : Layout cells) (fits : Fits start e) (free : Free cells start e)
    (byte : Nat) :
    Cells.origin? (cells.insert start e) byte =
      if Spans start e byte then some (e.origin (byte - start.toNat)) else cells.origin? byte := by
  have kept := layout.insert fits free
  split
  · next spans => exact kept.origin?_of_spans (by rw [WordMap.get?_insert, if_pos rfl]) spans
  · next apart =>
    have unbound : cells.get? start = none := by
      refine layout.get?_eq_none (free _ ⟨Nat.le_refl _, ?_⟩)
      have := fits.nonempty
      omega
    cases here : cells.origin? byte with
    | none =>
      rw [origin?_eq_none_iff] at here ⊢
      intro other f found
      rw [WordMap.get?_insert] at found
      split at found
      · next same =>
        cases found
        rwa [same]
      · exact here other f found
    | some origin =>
      obtain ⟨other, f, present, covers, rfl⟩ := exists_of_origin? here
      refine kept.origin?_of_spans ?_ covers
      rw [WordMap.get?_insert, if_neg, present]
      rintro rfl
      rw [unbound] at present
      contradiction

end Layout

end Concolic
