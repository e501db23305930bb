import Concolic.Memory.Read
import Concolic.Proofs.Machine.Inversion
import Concolic.Proofs.Memory.Clear

/-!
# Conditions that memory keeps

Memory moves expressions about, cuts them, converts them and assembles them, and makes up no other
ones: a condition that is closed under these operations passes from what is bound and stored to
what is bound afterwards and to what is read.  Nothing is asked of the layout.
-/

namespace Concolic

/-- A plain operand meets the one condition, an expression the other. -/
def Operand.Satisfies (plain : TypedValue → Prop) (node : Expr → Prop) : Operand → Prop
  | .concrete typed => plain typed
  | .symbolic e => node e

/-- What memory does to expressions that meet the condition gives such expressions. -/
structure Memory.Closed (node : Expr → Prop) : Prop where
  cut : ∀ {e part : Expr} {offset bytes : BitVec 32}, node e → e.mkSlice offset bytes = .ok part →
    node part
  converted : ∀ {e : Expr} (ty : CType), node e → node (Memory.convert e ty)
  part : ∀ {ty : CType} {size : BitVec 32} {parts : List (BitVec 32 × Expr)} {value : Value},
    node (.assemble ty size parts value) → ∀ part ∈ parts, node part.2
  assembled : ∀ (observed : TypedValue) {parts : List (BitVec 32 × Expr)}, parts ≠ [] →
    (∀ part ∈ parts, node part.2) →
      node (.mkAssemble observed.ty (.ofNat 32 observed.bytes) parts observed.value)

namespace Memory

variable {plain : TypedValue → Prop} {node : Expr → Prop} {memory after : Memory}
  {cells kept : Cells} {e : Expr} {address start : Address} {past length : Nat}

/-! ## Clearing -/

theorem Closed.keepAbove (closed : Closed node) (all : AllCells node cells) (here : node e)
    (ran : keepAbove past start e cells = .ok kept) : AllCells node kept := by
  unfold Memory.keepAbove at ran
  simp only at ran
  split at ran
  · obtain ⟨upper, cut, rest⟩ := bind_eq_ok.mp ran
    rw [pure_eq_ok] at rest
    rw [← rest]
    exact all.insert (closed.cut here cut)
  · cases ran
    exact all

theorem Closed.keepBelow (closed : Closed node) (all : AllCells node cells) (here : node e)
    (ran : keepBelow address start e cells = .ok kept) : AllCells node kept := by
  unfold Memory.keepBelow at ran
  split at ran
  · obtain ⟨lower, cut, rest⟩ := bind_eq_ok.mp ran
    rw [pure_eq_ok] at rest
    rw [← rest]
    exact all.insert (closed.cut here cut)
  · cases ran
    exact all

theorem Closed.clearCell (closed : Closed node) (all : AllCells node cells)
    (ran : clearCell address length cells start = .ok kept) : AllCells node kept := by
  unfold Memory.clearCell at ran
  split at ran
  · cases ran
    exact all
  · next e found =>
    obtain ⟨above, keptAbove, rest⟩ := bind_eq_ok.mp ran
    have here := all start e found
    exact closed.keepBelow (closed.keepAbove (all.erase start) here keptAbove) here rest

theorem Closed.clearCells (closed : Closed node) (starts : List Address)
    (all : AllCells node cells)
    (ran : starts.foldlM (Memory.clearCell address length) cells = .ok kept) :
    AllCells node kept := by
  induction starts generalizing cells with
  | nil =>
    cases ran
    exact all
  | cons start rest ih =>
    rw [List.foldlM_cons] at ran
    obtain ⟨first, cleared, ran⟩ := bind_eq_ok.mp ran
    exact ih (closed.clearCell all cleared) ran

theorem Closed.concretize (closed : Closed node) (all : AllCells node memory.cells)
    (ran : memory.concretize address length = .ok after) : AllCells node after.cells := by
  unfold Memory.concretize at ran
  split at ran
  · cases ran
    exact all
  · obtain ⟨kept, cleared, rest⟩ := bind_eq_ok.mp ran
    rw [pure_eq_ok] at rest
    rw [← rest]
    exact closed.clearCells _ all cleared

/-! ## Storing -/

theorem allCells_scatter {parts : List (BitVec 32 × Expr)} (all : AllCells node cells)
    (each : ∀ part ∈ parts, node part.2) (address : Address) :
    AllCells node (scatter cells address parts) := by
  induction parts generalizing cells with
  | nil => exact all
  | cons part rest ih =>
    obtain ⟨here, later⟩ := List.forall_mem_cons.mp each
    exact ih (all.insert here) later

theorem Closed.write (closed : Closed node) {ty : CType} (all : AllCells node memory.cells)
    (here : node e) (ran : memory.write address ty e = .ok after) : AllCells node after.cells := by
  unfold Memory.write at ran
  split at ran
  · obtain ⟨cleared, concretized, rest⟩ := bind_eq_ok.mp ran
    have kept := closed.concretize all concretized
    split at rest
    · rw [pure_eq_ok] at rest
      rw [← rest]
      exact allCells_scatter kept (closed.part here) address
    · rw [pure_eq_ok] at rest
      rw [← rest]
      exact kept.insert here
  · split at ran
    · obtain ⟨cleared, concretized, rest⟩ := bind_eq_ok.mp ran
      rw [pure_eq_ok] at rest
      rw [← rest]
      exact (closed.concretize all concretized).insert here
    · contradiction

theorem Closed.store (closed : Closed node) {operand : Operand}
    (all : AllCells node memory.cells) (here : operand.Satisfies plain node)
    (ran : memory.store address operand = .ok after) : AllCells node after.cells := by
  cases operand with
  | concrete typed => exact closed.concretize all ran
  | symbolic e =>
    simp only [Memory.store] at ran
    split at ran
    · exact closed.concretize all ran
    · exact closed.write all here ran

/-! ## Reading -/

theorem Closed.combine (closed : Closed node) {observed : TypedValue} (plainly : plain observed)
    {parts : List (BitVec 32 × Expr)} (some_parts : observed.ty = .struct → parts ≠ [])
    (each : ∀ part ∈ parts, node part.2) : (combine observed parts).Satisfies plain node := by
  have assembled (some_parts : parts ≠ []) : Operand.Satisfies plain node
      (.symbolic (.mkAssemble observed.ty (.ofNat 32 observed.bytes) parts observed.value)) :=
    closed.assembled observed some_parts each
  unfold Memory.combine
  simp only
  split
  · next struct =>
    refine assembled (some_parts (Decidable.byContradiction fun scalar ↦ ?_))
    rw [(CType.isStruct_eq_false_iff _).mpr scalar] at struct
    contradiction
  · split
    · exact plainly
    · next offset e =>
      split
      · exact closed.converted observed.ty (each (offset, e) (List.mem_singleton.mpr rfl))
      · exact assembled (List.cons_ne_nil _ _)
    · next two _ =>
      exact assembled two

/-- What holds of all results that the elements can give holds of the results. -/
theorem forall_mem_of_mapM {α β ε : Type} {f : α → Except ε β} {holds : β → Prop}
    {items : List α} {results : List β}
    (each : ∀ item ∈ items, ∀ result, f item = .ok result → holds result)
    (ran : items.mapM f = .ok results) : ∀ result ∈ results, holds result := by
  induction items generalizing results with
  | nil =>
    cases ran
    exact fun result member ↦ by cases member
  | cons item rest ih =>
    obtain ⟨here, later⟩ := List.forall_mem_cons.mp each
    rw [List.mapM_cons] at ran
    obtain ⟨first, given, ran⟩ := bind_eq_ok.mp ran
    obtain ⟨others, givenOthers, ran⟩ := bind_eq_ok.mp ran
    rw [pure_eq_ok] at ran
    rw [← ran, List.forall_mem_cons]
    exact ⟨here first given, ih later givenOthers⟩

theorem ne_nil_of_mapM {α β ε : Type} {f : α → Except ε β} {items : List α} {results : List β}
    (some_items : items ≠ []) (ran : items.mapM f = .ok results) : results ≠ [] := by
  cases items with
  | nil => contradiction
  | cons item rest =>
    rw [List.mapM_cons] at ran
    obtain ⟨first, -, ran⟩ := bind_eq_ok.mp ran
    obtain ⟨others, -, ran⟩ := bind_eq_ok.mp ran
    rw [pure_eq_ok] at ran
    rw [← ran]
    exact List.cons_ne_nil first others

theorem Closed.clips (closed : Closed node) {bindings : List (Address × Expr)}
    {parts : List (BitVec 32 × Expr)} (each : ∀ cell ∈ bindings, node cell.2)
    (ran : bindings.mapM (clip address length) = .ok parts) : ∀ part ∈ parts, node part.2 := by
  refine forall_mem_of_mapM (fun cell member part clipped ↦ ?_) ran
  obtain ⟨inner, cut, result⟩ := bind_eq_ok.mp clipped
  rw [pure_eq_ok] at result
  rw [← result]
  exact closed.cut (each cell member) cut

/-- A read gives the observed value, or combines those of the parts it clips that record what was
observed, and all of them for an aggregate. -/
theorem readReporting_inv {ty : CType} {value : Value} {reading : Reading}
    (ran : memory.readReporting address ty value = .ok reading) :
    reading.operand = .concrete (.of ty value) ∨
      ∃ parts used, (memory.bindingsIn address (TypedValue.of ty value).bytes).reverse.mapM
          (clip address (TypedValue.of ty value).bytes) = .ok parts ∧
        used ⊆ parts ∧ (ty = .struct → used ≠ []) ∧
        (ty ≠ .struct → ∀ part ∈ used, isFresh (TypedValue.of ty value).value part = true) ∧
        reading.operand = Memory.combine (.of ty value) used := by
  unfold readReporting at ran
  simp only at ran
  split at ran
  · cases ran
    exact .inl rfl
  · split at ran
    · cases ran
      exact .inl rfl
    · next found =>
      obtain ⟨parts, clips, ran⟩ := bind_eq_ok.mp ran
      split at ran
      · next struct =>
        rw [pure_eq_ok] at ran
        refine .inr ⟨parts, parts, clips, List.Subset.refl parts, fun _ ↦ ?_, fun scalar ↦ ?_,
          by rw [← ran]⟩
        · exact ne_nil_of_mapM (by simpa using found) clips
        · exact absurd ((CType.isStruct_eq_false_iff ty).mpr scalar) (by simp [struct])
      · next scalar =>
        rw [pure_eq_ok] at ran
        refine .inr ⟨parts, _, clips, List.filter_sublist.subset, fun struct ↦ ?_,
          fun _ part member ↦ (List.mem_filter.mp member).2, by rw [← ran]⟩
        exact absurd (by rw [struct]; rfl) scalar

/-- What the search from the top of a range finds is bound. -/
theorem get?_of_mem_bindingsIn {cell : Address × Expr}
    (member : cell ∈ (memory.bindingsIn address length).reverse) :
    memory.cells.get? cell.1 = some cell.2 :=
  (of_mem_bindingsIn (List.mem_reverse.mp member)).1

theorem Closed.readReporting (closed : Closed node) (observed : ∀ ty value, plain (.of ty value))
    {ty : CType} {value : Value} {reading : Reading} (all : AllCells node memory.cells)
    (ran : memory.readReporting address ty value = .ok reading) :
    reading.operand.Satisfies plain node := by
  rcases readReporting_inv ran with plainly | ⟨parts, used, clips, sub, some_parts, -, result⟩
  · rw [plainly]
    exact observed ty value
  · have bound (cell : Address × Expr)
        (member : cell ∈ (memory.bindingsIn address (TypedValue.of ty value).bytes).reverse) :
        node cell.2 :=
      all cell.1 cell.2 (get?_of_mem_bindingsIn member)
    rw [result]
    exact closed.combine (observed ty value) some_parts fun part member ↦
      closed.clips bound clips part (sub member)

end Memory

end Concolic
