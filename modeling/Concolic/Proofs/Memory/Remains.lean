import Concolic.Proofs.Machine.Inversion
import Concolic.Proofs.Memory.Clear

/-!
# What remains of bindings

Clearing a range takes away every binding that meets it and binds again what remains of it on
either side; all other bindings stay.  Where clearing succeeds this holds of any bindings, also of
such that lie on top of each other or are slices out of range.
-/

namespace Concolic

/-- What is cut has the size that was asked for. -/
theorem Expr.bytes_mkSlice {e part : Expr} {offset bytes : BitVec 32}
    (cut : e.mkSlice offset bytes = .ok part) : part.bytes = bytes.toNat := by
  induction e generalizing offset with
  | slice whole start length value ih =>
    unfold mkSlice at cut
    split at cut
    · contradiction
    · split at cut
      · next all =>
        cases cut
        exact all.2.symm
      · exact ih cut
  | _ =>
    unfold mkSlice at cut
    split at cut
    · contradiction
    · split at cut
      · next all =>
        cases cut
        exact all.2.symm
      · cases cut
        rfl

/-- The bytes of an expression bound to `start` that lie on one side of a range, bound where they
are. -/
structure Remnant (first past : Nat) (start : Address) (e : Expr) (place : Address) (part : Expr) :
    Prop where
  nonempty : 0 < part.bytes
  low : start.toNat ≤ place.toNat
  high : place.toNat + part.bytes ≤ start.toNat + e.bytes
  side : place = start ∧ place.toNat + part.bytes = first ∨
    place.toNat = past ∧ place.toNat + part.bytes = start.toNat + e.bytes
  cut : e.mkSlice (.ofNat 32 (place.toNat - start.toNat)) (.ofNat 32 part.bytes) = .ok part

/-- At most one more binding, which is as described. -/
def Extended (described : Address → Expr → Prop) (cells kept : Cells) : Prop :=
  kept = cells ∨ ∃ place part, kept = cells.insert place part ∧ described place part

namespace Extended

variable {described : Address → Expr → Prop} {cells kept : Cells} {place : Address}

theorem of_get? {part : Expr} (extended : Extended described cells kept)
    (found : kept.get? place = some part) :
    cells.get? place = some part ∨ described place part := by
  rcases extended with rfl | ⟨other, new, rfl, here⟩
  · exact .inl found
  · rw [WordMap.get?_insert] at found
    split at found
    · next same =>
      cases found
      exact .inr (same ▸ here)
    · exact .inl found

theorem get?_eq (extended : Extended described cells kept)
    (apart : ∀ part, ¬described place part) : kept.get? place = cells.get? place := by
  rcases extended with rfl | ⟨other, new, rfl, here⟩
  · rfl
  · rw [WordMap.get?_insert, if_neg]
    rintro rfl
    exact apart new here

end Extended

namespace Memory

variable {cells kept after : Cells} {address start : Address} {e : Expr} {first past length : Nat}

theorem keepAbove_inv (below : start.toNat < past) (inside : start.toNat + e.bytes ≤ 2 ^ 64)
    (ran : keepAbove past start e cells = .ok kept) :
    Extended (fun place part ↦ place.toNat = past ∧ Remnant first past start e place part)
      cells kept := by
  unfold keepAbove at ran
  simp only at ran
  split at ran
  · next some_bytes =>
    have narrow := e.bytes_lt
    obtain ⟨upper, cut, result⟩ := bind_eq_ok.mp ran
    rw [pure_eq_ok] at result
    have place : (BitVec.ofNat 64 past).toNat = past := Nat.mod_eq_of_lt (by omega)
    have size : upper.bytes = start.toNat + e.bytes - past :=
      (Expr.bytes_mkSlice cut).trans (Nat.mod_eq_of_lt (by omega))
    refine .inr ⟨.ofNat 64 past, upper, result.symm, place, ?_⟩
    exact ⟨by omega, by omega, by omega, .inr ⟨place, by omega⟩, by rwa [place, size]⟩
  · cases ran
    exact .inl rfl

theorem keepBelow_inv (above : address.toNat < start.toNat + e.bytes)
    (ran : keepBelow address start e cells = .ok kept) :
    Extended (fun place part ↦ place = start ∧
      Remnant address.toNat past start e place part) cells kept := by
  unfold keepBelow at ran
  split at ran
  · next some_bytes =>
    have narrow := e.bytes_lt
    have before : start.toNat < address.toNat := BitVec.lt_def.mp some_bytes
    obtain ⟨lower, cut, result⟩ := bind_eq_ok.mp ran
    rw [pure_eq_ok] at result
    have size : lower.bytes = address.toNat - start.toNat :=
      (Expr.bytes_mkSlice cut).trans (Nat.mod_eq_of_lt (by omega))
    refine .inr ⟨start, lower, result.symm, rfl, ?_⟩
    exact ⟨by omega, Nat.le_refl _, by omega, .inl ⟨rfl, by omega⟩, by rwa [Nat.sub_self, size]⟩
  · cases ran
    exact .inl rfl

/-- What remains of the binding at `start` replaces it; no other place changes, unless it is where
the upper part of the binding comes to lie. -/
theorem clearCell_inv (found : cells.get? start = some e)
    (meets : Meets address.toNat (address.toNat + length) start e)
    (inside : start.toNat + e.bytes ≤ 2 ^ 64)
    (ran : clearCell address length cells start = .ok after) :
    (∀ place part, after.get? place = some part →
      place ≠ start ∧ cells.get? place = some part ∨
        Remnant address.toNat (address.toNat + length) start e place part) ∧
    ∀ place, place ≠ start → (place.toNat = address.toNat + length → ¬Spans start e place.toNat) →
      after.get? place = cells.get? place := by
  rw [clearCell, found] at ran
  obtain ⟨top, keptAbove, keptBelow⟩ := bind_eq_ok.mp ran
  have upper : Extended (fun place part ↦ place.toNat = address.toNat + length ∧
      Remnant address.toNat (address.toNat + length) start e place part) (cells.erase start) top :=
    keepAbove_inv meets.1 inside keptAbove
  have lower : Extended (fun place part ↦ place = start ∧
      Remnant address.toNat (address.toNat + length) start e place part) top after :=
    keepBelow_inv meets.2 keptBelow
  constructor
  · intro place part present
    rcases lower.of_get? present with present | ⟨-, remnant⟩
    · rcases upper.of_get? present with present | ⟨-, remnant⟩
      · rw [WordMap.get?_erase] at present
        split at present
        · contradiction
        · next elsewhere => exact .inl ⟨elsewhere, present⟩
      · exact .inr remnant
    · exact .inr remnant
  · intro place elsewhere apart
    rw [lower.get?_eq fun _ here ↦ elsewhere here.1, upper.get?_eq, WordMap.get?_erase,
      if_neg elsewhere]
    rintro part ⟨top, remnant⟩
    refine apart top ⟨remnant.low, ?_⟩
    have nonempty := remnant.nonempty
    have high := remnant.high
    omega

/-- A list of bindings that meet the range and do not wrap. -/
def AllMeet (first past : Nat) (cells : Cells) (starts : List Address) : Prop :=
  ∀ start ∈ starts, ∃ e, cells.get? start = some e ∧ Meets first past start e ∧
    start.toNat + e.bytes ≤ 2 ^ 64

/-- After clearing, a binding is one that was not in the list or remains of one that was.  Bindings
that lie apart from those in the list stay. -/
structure Leaves (first past : Nat) (starts : List Address) (cells after : Cells) : Prop where
  remains : ∀ place part, after.get? place = some part →
    place ∉ starts ∧ cells.get? place = some part ∨
      ∃ start ∈ starts, ∃ e, cells.get? start = some e ∧ Remnant first past start e place part
  kept : ∀ place, place ∉ starts →
    (∀ start ∈ starts, ∀ e, cells.get? start = some e → ¬Spans start e place.toNat) →
    after.get? place = cells.get? place

theorem clearCells_inv {starts : List Address} (distinct : starts.Nodup)
    (meet : AllMeet address.toNat (address.toNat + length) cells starts)
    (ran : starts.foldlM (clearCell address length) cells = .ok after) :
    Leaves address.toNat (address.toNat + length) starts cells after := by
  induction starts generalizing cells with
  | nil =>
    cases ran
    exact ⟨fun place part found ↦ .inl ⟨List.not_mem_nil, found⟩, fun _ _ _ ↦ rfl⟩
  | cons start rest ih =>
    obtain ⟨fresh, others⟩ := List.nodup_cons.mp distinct
    obtain ⟨e, found, meets, inside⟩ := meet start List.mem_cons_self
    rw [List.foldlM_cons] at ran
    obtain ⟨middle, cleared, ran⟩ := bind_eq_ok.mp ran
    obtain ⟨remains, kept⟩ := clearCell_inv found meets inside cleared
    -- the bindings still in the list begin below the end of the range
    have later (other : Address) (member : other ∈ rest) : middle.get? other = cells.get? other := by
      obtain ⟨f, -, reached, -⟩ := meet other (List.mem_cons_of_mem _ member)
      refine kept other (fun same ↦ fresh (same ▸ member)) fun top ↦ ?_
      have := reached.1
      omega
    have leaves := ih others (fun other member ↦ by
      rw [later other member]
      exact meet other (List.mem_cons_of_mem _ member)) ran
    constructor
    · intro place part present
      rcases leaves.remains place part present with
        ⟨notLater, present⟩ | ⟨other, member, f, here, remnant⟩
      · rcases remains place part present with ⟨elsewhere, present⟩ | remnant
        · exact .inl ⟨by simp [elsewhere, notLater], present⟩
        · exact .inr ⟨start, List.mem_cons_self, e, found, remnant⟩
      · rw [later other member] at here
        exact .inr ⟨other, List.mem_cons_of_mem _ member, f, here, remnant⟩
    · intro place absent apart
      have elsewhere : place ≠ start := fun same ↦ absent (same ▸ List.mem_cons_self)
      have notLater : place ∉ rest := fun member ↦ absent (List.mem_cons_of_mem _ member)
      rw [leaves.kept place notLater fun other member f here ↦ ?_,
        kept place elsewhere fun _ ↦ apart start List.mem_cons_self e found]
      rw [later other member] at here
      exact apart other (List.mem_cons_of_mem _ member) f here

/-- Where clearing a range succeeds it leaves what remains of the bindings found there. -/
theorem concretize_inv {memory after : Memory}
    (inside : ∀ start e, memory.cells.get? start = some e →
      Meets address.toNat (address.toNat + length) start e → start.toNat + e.bytes ≤ 2 ^ 64)
    (ran : memory.concretize address length = .ok after) :
    length = 0 ∧ after = memory ∨ 0 < length ∧
      Leaves address.toNat (address.toNat + length)
        ((memory.bindingsIn address length).map Prod.fst) memory.cells after.cells := by
  unfold concretize at ran
  split at ran
  · next none =>
    cases ran
    exact .inl ⟨none, rfl⟩
  · next some_bytes =>
    obtain ⟨kept, cleared, result⟩ := bind_eq_ok.mp ran
    rw [pure_eq_ok] at result
    subst result
    refine .inr ⟨by omega, clearCells_inv (nodup_starts memory address length) ?_ cleared⟩
    intro start member
    obtain ⟨e, found, meets⟩ := of_mem_starts member
    exact ⟨e, found, meets, inside start e found meets⟩

/-- After a range is cleared, a binding stays off it or is what remains of one that met it. -/
theorem concretize_remains {memory after : Memory} (ranges : Ranges memory.cells)
    (some_bytes : 0 < length) (ran : memory.concretize address length = .ok after)
    {place : Address} {part : Expr} (found : after.cells.get? place = some part) :
    memory.cells.get? place = some part ∧
        ¬Meets address.toNat (address.toNat + length) place part ∨
      ∃ start e, memory.cells.get? start = some e ∧
        Remnant address.toNat (address.toNat + length) start e place part := by
  rcases concretize_inv (fun start e bound _ ↦ Nat.le_of_lt (ranges.inside start e bound)) ran with
    ⟨none, -⟩ | ⟨-, leaves⟩
  · omega
  rcases leaves.remains place part found with ⟨absent, before⟩ | ⟨start, -, e, before, remnant⟩
  · exact .inl ⟨before, fun meets ↦ absent (mem_starts ranges before meets)⟩
  · exact .inr ⟨start, e, before, remnant⟩

end Memory

end Concolic
