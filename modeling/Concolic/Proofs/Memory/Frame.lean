import Concolic.Proofs.Memory.Closure
import Concolic.Proofs.Memory.Load
import Concolic.Proofs.Memory.Remains

/-!
# What a binding survives

A binding is guarded while it lies where it was written and no other one has bytes in its range.
Whatever is written, stored, copied or cleared outside of the range keeps it guarded, and a read of
a guarded range gives the expression itself, unless the program has changed the value unseen.
-/

namespace Concolic

/-- What is done to a memory, and what of it is given to a solver. -/
inductive MemoryAction where
  | write (address : Address) (ty : CType) (e : Expr)
  | store (address : Address) (operand : Operand)
  | copy (target source : Address) (ty : CType) (value : Value)
  | concretize (address : Address) (length : Nat)
  | equate
  | equateAt (address : Address)

def MemoryAction.apply (memory : Memory) : MemoryAction → Except Fault Memory
  | .write address ty e => memory.write address ty e
  | .store address operand => memory.store address operand
  | .copy target source ty value => do memory.store target (← memory.read source ty value)
  | .concretize address length => memory.concretize address length
  | .equate | .equateAt _ => .ok memory

/-- What a write binds, and where: an aggregate part by part, anything else as a whole. -/
def Memory.pieces (ty : CType) (e : Expr) : List (BitVec 32 × Expr) :=
  match ty.isStruct, e with
  | true, .assemble _ _ parts _ => parts
  | _, e => [(0, e)]

/-- There are bytes in the piece, all inside of the first `room` ones. -/
def Lies (room : Nat) (part : BitVec 32 × Expr) : Prop :=
  0 < part.2.bytes ∧ part.1.toNat + part.2.bytes ≤ room

instance (room : Nat) (part : BitVec 32 × Expr) : Decidable (Lies room part) :=
  inferInstanceAs (Decidable (_ ∧ _))

/-- Some bytes that do not wrap, none of them between `first` and `past`. -/
structure Outside (first past : Nat) (address : Address) (length : Nat) : Prop where
  nonempty : 0 < length
  inside : address.toNat + length < 2 ^ 64
  apart : address.toNat + length ≤ first ∨ past ≤ address.toNat

instance (first past : Nat) (address : Address) (length : Nat) :
    Decidable (Outside first past address length) :=
  decidable_of_iff (0 < length ∧ address.toNat + length < 2 ^ 64 ∧
      (address.toNat + length ≤ first ∨ past ≤ address.toNat))
    ⟨fun ⟨nonempty, inside, apart⟩ ↦ ⟨nonempty, inside, apart⟩,
      fun outside ↦ ⟨outside.nonempty, outside.inside, outside.apart⟩⟩

/-- The action changes some bytes, none of which is in the range, and binds nothing outside of what
it changes. -/
def MemoryAction.Spares (first past : Nat) : MemoryAction → Prop
  | .write address ty e =>
    Outside first past address e.bytes ∧ ∀ part ∈ Memory.pieces ty e, Lies e.bytes part
  | .store address (.concrete typed) => Outside first past address typed.bytes
  | .store address (.symbolic e) =>
    Outside first past address e.bytes ∧ ∀ part ∈ Memory.pieces e.ty e, Lies e.bytes part
  | .copy target _ ty value => Outside first past target (TypedValue.of ty value).bytes
  | .concretize address length => Outside first past address length
  | .equate | .equateAt _ => True

instance (first past : Nat) : (action : MemoryAction) → Decidable (action.Spares first past)
  | .write .. | .store _ (.symbolic _) => inferInstanceAs (Decidable (_ ∧ _))
  | .store address (.concrete typed) =>
    inferInstanceAs (Decidable (Outside first past address typed.bytes))
  | .copy target _ ty value =>
    inferInstanceAs (Decidable (Outside first past target (TypedValue.of ty value).bytes))
  | .concretize address length => inferInstanceAs (Decidable (Outside first past address length))
  | .equate | .equateAt _ => .isTrue trivial

/-- `e` is bound to `address` and no other binding has bytes in its range. -/
structure Guarded (address : Address) (e : Expr) (cells : Cells) : Prop where
  nonempty : 0 < e.bytes
  inside : address.toNat + e.bytes < 2 ^ 64
  bound : cells.get? address = some e
  others : ∀ start f, cells.get? start = some f → start ≠ address →
    Outside address.toNat (address.toNat + e.bytes) start f.bytes

theorem Outside.place {first past room : Nat} {target : Address}
    (outside : Outside first past target room) {part : BitVec 32 × Expr} (lies : Lies room part) :
    Outside first past (target + part.1.setWidth 64) part.2.bytes := by
  obtain ⟨nonempty, inside, apart⟩ := outside
  obtain ⟨some_bytes, high⟩ := lies
  have place : (target + part.1.setWidth 64).toNat = target.toNat + part.1.toNat :=
    Address.toNat_add_setWidth (by omega)
  exact ⟨some_bytes, by omega, by omega⟩

namespace Memory

variable {memory after cleared : Memory} {cells : Cells} {address target : Address}
  {e f : Expr} {length room : Nat} {ty : CType} {value : Value} {operand : Operand}

theorem scatter_whole (cells : Cells) (target : Address) (f : Expr) :
    scatter cells target [(0, f)] = cells.insert target f := by
  simp [scatter]

theorem pieces_of_scalar (scalar : ty ≠ .struct) (f : Expr) : pieces ty f = [(0, f)] := by
  unfold pieces
  rw [(CType.isStruct_eq_false_iff ty).mpr scalar]

/-- A write clears the bytes of the expression and binds its pieces. -/
theorem write_inv (ran : memory.write target ty f = .ok after) :
    (ty ≠ .struct → f.bytes = ty.size) ∧
      ∃ cleared, memory.concretize target f.bytes = .ok cleared ∧
        after.cells = scatter cleared.cells target (pieces ty f) := by
  unfold write at ran
  split at ran
  · next struct =>
    obtain ⟨cleared, ranClear, result⟩ := bind_eq_ok.mp ran
    refine ⟨fun scalar ↦ absurd struct (by simp [(CType.isStruct_eq_false_iff ty).mpr scalar]),
      cleared, ranClear, ?_⟩
    unfold pieces
    rw [struct]
    split at result
    · rw [pure_eq_ok] at result
      rw [← result]
    · next whole =>
      rw [pure_eq_ok] at result
      rw [← result]
      split
      · exact absurd rfl (whole _ _ _ _)
      · exact (scatter_whole ..).symm
  · next notStruct =>
    have scalar : ty ≠ .struct := (CType.isStruct_eq_false_iff ty).mp (by simpa using notStruct)
    split at ran
    · next sized =>
      obtain ⟨cleared, ranClear, result⟩ := bind_eq_ok.mp ran
      rw [pure_eq_ok] at result
      refine ⟨fun _ ↦ sized, cleared, by rw [sized, ranClear], ?_⟩
      rw [← result, pieces_of_scalar scalar, scatter_whole]
    · contradiction

/-! ## What a read takes out of memory -/

theorem clip_lies {part : BitVec 32 × Expr}
    (meets : Meets address.toNat (address.toNat + length) target e) (nonempty : 0 < e.bytes)
    (some_bytes : 0 < length) (ran : clip address length (target, e) = .ok part) :
    Lies length part := by
  have narrow := e.bytes_lt
  obtain ⟨below, above⟩ := meets
  obtain ⟨inner, cut, result⟩ := bind_eq_ok.mp ran
  rw [pure_eq_ok] at result
  subst result
  simp only at cut ⊢
  have offset := Nat.mod_le (max target.toNat address.toNat - address.toNat) (2 ^ 32)
  have size : inner.bytes = min (target.toNat + e.bytes) (address.toNat + length) -
      max target.toNat address.toNat :=
    (Expr.bytes_mkSlice cut).trans (Nat.mod_eq_of_lt (by omega))
  simp only [Lies, BitVec.toNat_ofNat]
  omega

/-- What a read gives lies inside of the range that was read. -/
theorem read_lies (nonempty : AllCells (0 < ·.bytes) memory.cells)
    (some_bytes : 0 < (TypedValue.of ty value).bytes)
    (ran : memory.read address ty value = .ok operand) :
    operand = .concrete (.of ty value) ∨ ∃ f, operand = .symbolic f ∧
      f.bytes ≤ (TypedValue.of ty value).bytes ∧
      ∀ part ∈ pieces f.ty f, Lies (TypedValue.of ty value).bytes part := by
  rw [read, map_eq_pure_bind] at ran
  obtain ⟨reading, reported, result⟩ := bind_eq_ok.mp ran
  obtain rfl : reading.operand = operand := pure_eq_ok.mp result
  rcases readReporting_inv reported with plainly | ⟨parts, used, clips, sub, -, -, combined⟩
  · exact .inl plainly
  have lie (part : BitVec 32 × Expr) (member : part ∈ used) :
      Lies (TypedValue.of ty value).bytes part := by
    refine forall_mem_of_mapM (fun cell found part clipped ↦ ?_) clips part (sub member)
    obtain ⟨bound, meets⟩ := of_mem_bindingsIn (List.mem_reverse.mp found)
    exact clip_lies meets (nonempty _ _ bound) some_bytes clipped
  rw [combined]
  have narrow := Nat.mod_le (TypedValue.of ty value).bytes (2 ^ 32)
  by_cases aggregate : ty = .struct
  · refine .inr ⟨_, combine_struct aggregate used, narrow, fun part member ↦ ?_⟩
    exact lie part ((Expr.mem_sortParts part used).mp member)
  · have scalar : (TypedValue.of ty value).ty ≠ .struct := aggregate
    have size : (TypedValue.of ty value).bytes = ty.size := bytes_of_scalar scalar
    have whole (f : Expr) (same : f.ty = ty) (bytes : f.bytes = ty.size) :
        ∀ part ∈ pieces f.ty f, Lies (TypedValue.of ty value).bytes part := by
      rw [same, pieces_of_scalar aggregate]
      intro part member
      rw [List.mem_singleton.mp member]
      exact ⟨bytes ▸ CType.size_pos aggregate, by simp [size, bytes]⟩
    rcases combine_cases scalar used with
      ⟨-, plainly⟩ | ⟨f, -, fills, converted⟩ | ⟨-, assembled⟩
    · exact .inl plainly
    · have bytes : (convert f ty).bytes = ty.size := convert_bytes (fills.trans size)
      exact .inr ⟨_, converted, by rw [size]; exact Nat.le_of_eq bytes,
        whole _ (convert_ty f ty) bytes⟩
    · exact .inr ⟨_, assembled, narrow, whole _ rfl (by rw [size]; exact size_ofNat ty)⟩

/-- The bytes of a scalar are fresh where the program observed the recorded value. -/
theorem isFresh_whole (scalar : e.ty ≠ .struct) (sized : e.bytes = e.ty.size)
    (normal : e.ty.normalize e.value = e.value) (value : Value) :
    isFresh (e.ty.normalize value) (0, e) = true ↔ e.ty.normalize value = e.value := by
  rw [isFresh, beq_iff_eq]
  constructor
  · intro same
    have recorded : byteRange e.value 0 e.bytes = byteRange (e.ty.normalize value) 0 e.bytes := same
    rw [sized] at recorded
    rw [← CType.normalize_byteRange_self scalar normal, recorded,
      CType.normalize_byteRange_self scalar (CType.normalize_normalize e.ty value)]
  · intro same
    rw [same]
    rfl

theorem clip_self (address : Address) (e : Expr) :
    clip address e.bytes (address, e) = .ok (0, e) := by
  rw [clip]
  simp only [Nat.max_self, Nat.min_self, Nat.sub_self, Nat.add_sub_cancel_left, Expr.mkSlice_self]
  rfl

/-- A binding that is read whole at its own type needs no conversion. -/
theorem combine_self (scalar : e.ty ≠ .struct) (sized : e.bytes = e.ty.size) (value : Value) :
    combine (.of e.ty value) [(0, e)] = .symbolic e := by
  have notStruct : (TypedValue.of e.ty value).ty.isStruct = false :=
    (CType.isStruct_eq_false_iff e.ty).mpr scalar
  have size : (TypedValue.of e.ty value).bytes = e.bytes := (bytes_of_scalar scalar).trans sized.symm
  have own : convert e (TypedValue.of e.ty value).ty = e := if_pos rfl
  simp only [combine, notStruct, Bool.false_eq_true, if_false, size, and_self, if_true, own]

end Memory

/-! ## Guarded bindings -/

namespace Guarded

variable {memory after : Memory} {cells : Cells} {address target : Address} {e f : Expr}
  {length room : Nat} {ty : CType}

theorem fits (guarded : Guarded address e cells) {start : Address} {f : Expr}
    (found : cells.get? start = some f) : 0 < f.bytes ∧ start.toNat + f.bytes < 2 ^ 64 := by
  by_cases same : start = address
  · rw [same, guarded.bound] at found
    cases found
    exact ⟨guarded.nonempty, same ▸ guarded.inside⟩
  · exact ⟨(guarded.others start f found same).nonempty, (guarded.others start f found same).inside⟩

theorem insert (guarded : Guarded address e cells)
    (outside : Outside address.toNat (address.toNat + e.bytes) target f.bytes) :
    Guarded address e (cells.insert target f) := by
  have elsewhere : address ≠ target := by
    rintro rfl
    have := guarded.nonempty
    have := outside.nonempty
    have := outside.apart
    omega
  refine ⟨guarded.nonempty, guarded.inside, ?_, fun start g found different ↦ ?_⟩
  · rw [WordMap.get?_insert, if_neg elsewhere, guarded.bound]
  · rw [WordMap.get?_insert] at found
    split at found
    · next same =>
      cases found
      exact same ▸ outside
    · exact guarded.others start g found different

theorem scatter (guarded : Guarded address e cells) {parts : List (BitVec 32 × Expr)}
    (outside : Outside address.toNat (address.toNat + e.bytes) target room)
    (lie : ∀ part ∈ parts, Lies room part) :
    Guarded address e (Memory.scatter cells target parts) := by
  induction parts generalizing cells with
  | nil => exact guarded
  | cons part rest ih =>
    obtain ⟨here, later⟩ := List.forall_mem_cons.mp lie
    exact ih (guarded.insert (outside.place here)) later

/-- What remains of the other bindings stays off the guarded one, which is not found. -/
theorem concretize (guarded : Guarded address e memory.cells)
    (apart : target.toNat + length ≤ address.toNat ∨ address.toNat + e.bytes ≤ target.toNat)
    (ran : memory.concretize target length = .ok after) : Guarded address e after.cells := by
  have nonempty := guarded.nonempty
  rcases Memory.concretize_inv (fun start f found _ ↦ Nat.le_of_lt (guarded.fits found).2) ran with
    ⟨-, rfl⟩ | ⟨some_bytes, leaves⟩
  · exact guarded
  have absent : address ∉ (memory.bindingsIn target length).map Prod.fst := by
    intro member
    obtain ⟨f, found, meets⟩ := Memory.of_mem_starts member
    rw [guarded.bound] at found
    cases found
    unfold Meets at meets
    omega
  refine ⟨nonempty, guarded.inside, ?_, fun place part found different ↦ ?_⟩
  · rw [leaves.kept address absent fun start member f found spans ↦ ?_, guarded.bound]
    have outside := guarded.others start f found fun same ↦ absent (same ▸ member)
    have := outside.apart
    unfold Spans at spans
    omega
  · rcases leaves.remains place part found with ⟨-, before⟩ | ⟨start, member, f, before, remnant⟩
    · exact guarded.others place part before different
    · have outside := guarded.others start f before fun same ↦ absent (same ▸ member)
      have low := remnant.low
      have high := remnant.high
      have := outside.inside
      have := outside.apart
      exact ⟨remnant.nonempty, by omega, by omega⟩

theorem write (guarded : Guarded address e memory.cells)
    (outside : Outside address.toNat (address.toNat + e.bytes) target room)
    (narrow : f.bytes ≤ room) (lie : ∀ part ∈ Memory.pieces ty f, Lies room part)
    (ran : memory.write target ty f = .ok after) : Guarded address e after.cells := by
  obtain ⟨-, cleared, ranClear, result⟩ := Memory.write_inv ran
  have := outside.apart
  rw [result]
  exact (guarded.concretize (by omega) ranClear).scatter outside lie

theorem store (guarded : Guarded address e memory.cells)
    (outside : Outside address.toNat (address.toNat + e.bytes) target room)
    (narrow : f.bytes ≤ room) (lie : ∀ part ∈ Memory.pieces f.ty f, Lies room part)
    (ran : memory.store target (.symbolic f) = .ok after) : Guarded address e after.cells := by
  have := outside.apart
  simp only [Memory.store] at ran
  split at ran
  · exact guarded.concretize (by omega) ran
  · exact guarded.write outside narrow lie ran

/-- No action outside of the range touches a guarded binding. -/
theorem apply (guarded : Guarded address e memory.cells) {action : MemoryAction}
    (spares : action.Spares address.toNat (address.toNat + e.bytes))
    (ran : action.apply memory = .ok after) : Guarded address e after.cells := by
  cases action with
  | write target ty f => exact guarded.write spares.1 (Nat.le_refl _) spares.2 ran
  | store target operand =>
    cases operand with
    | concrete typed => exact guarded.concretize spares.apart ran
    | symbolic f => exact guarded.store spares.1 (Nat.le_refl _) spares.2 ran
  | copy target source ty value =>
    have outside : Outside address.toNat (address.toNat + e.bytes) target
      (TypedValue.of ty value).bytes := spares
    obtain ⟨operand, loaded, stored⟩ := bind_eq_ok.mp ran
    rcases Memory.read_lies (fun _ _ found ↦ (guarded.fits found).1) outside.nonempty loaded with
      rfl | ⟨f, rfl, narrow, lie⟩
    · exact guarded.concretize outside.apart stored
    · exact guarded.store outside narrow lie stored
  | concretize target length => exact guarded.concretize spares.apart ran
  | equate | equateAt target =>
    cases ran
    exact guarded

theorem run (guarded : Guarded address e memory.cells) {actions : List MemoryAction}
    (spares : ∀ action ∈ actions, action.Spares address.toNat (address.toNat + e.bytes))
    (ran : actions.foldlM MemoryAction.apply memory = .ok after) :
    Guarded address e after.cells := by
  induction actions generalizing memory with
  | nil =>
    cases ran
    exact guarded
  | cons action rest ih =>
    obtain ⟨here, later⟩ := List.forall_mem_cons.mp spares
    rw [List.foldlM_cons] at ran
    obtain ⟨middle, first, ran⟩ := bind_eq_ok.mp ran
    exact ih (guarded.apply here first) later ran

/-! ## Writing and reading the binding itself -/

/-- A scalar that is written is guarded. -/
theorem of_write (ranges : Ranges memory.cells) (scalar : e.ty ≠ .struct)
    (inside : address.toNat + e.bytes < 2 ^ 64)
    (ran : memory.write address e.ty e = .ok after) : Guarded address e after.cells := by
  obtain ⟨sized, cleared, ranClear, result⟩ := Memory.write_inv ran
  have nonempty : 0 < e.bytes := sized scalar ▸ CType.size_pos scalar
  rw [Memory.pieces_of_scalar scalar, Memory.scatter_whole] at result
  refine ⟨nonempty, inside, by rw [result, WordMap.get?_insert, if_pos rfl],
    fun place part found different ↦ ?_⟩
  rw [result, WordMap.get?_insert, if_neg different] at found
  rcases Memory.concretize_remains ranges nonempty ranClear found with
    ⟨before, apart⟩ | ⟨start, f, before, remnant⟩
  · refine ⟨ranges.nonempty place part before, ranges.inside place part before, ?_⟩
    unfold Meets at apart
    omega
  · have within := ranges.inside start f before
    have high := remnant.high
    have side := remnant.side
    exact ⟨remnant.nonempty, by omega, by omega⟩

/-- The bindings before a guarded one end below its range, those behind it begin above. -/
theorem entries_eq (guarded : Guarded address e cells) :
    ∃ lower upper, cells.entries = lower ++ (address, e) :: upper ∧
      (∀ cell ∈ lower, cell.1.toNat + cell.2.bytes ≤ address.toNat) ∧
      ∀ cell ∈ upper, address.toNat + e.bytes ≤ cell.1.toNat := by
  obtain ⟨lower, upper, split⟩ :=
    List.append_of_mem ((cells.mem_entries_iff address e).mpr guarded.bound)
  have ascending := cells.ascending
  rw [split, Ascending, List.pairwise_append, List.pairwise_cons] at ascending
  obtain ⟨-, ⟨above, -⟩, below⟩ := ascending
  have outside (cell : Address × Expr) (member : cell ∈ lower ++ (address, e) :: upper)
      (different : cell.1.toNat ≠ address.toNat) :
      Outside address.toNat (address.toNat + e.bytes) cell.1 cell.2.bytes :=
    guarded.others cell.1 cell.2 ((cells.mem_entries_iff ..).mp (split ▸ member))
      fun same ↦ different (by rw [same])
  refine ⟨lower, upper, split, fun cell member ↦ ?_, fun cell member ↦ ?_⟩
  · have order : cell.1.toNat < address.toNat :=
      BitVec.lt_def.mp (below cell member (address, e) List.mem_cons_self)
    have apart := (outside cell (List.mem_append_left _ member) (by omega)).apart
    omega
  · have order : address.toNat < cell.1.toNat := BitVec.lt_def.mp (above cell member)
    have outside := outside cell (List.mem_append_right _ (.tail _ member)) (by omega)
    have apart := outside.apart
    have nonempty := outside.nonempty
    omega

/-- The search finds the guarded binding and stops at the next one. -/
theorem bindingsIn_eq (guarded : Guarded address e memory.cells) :
    memory.bindingsIn address e.bytes = [(address, e)] := by
  have nonempty := guarded.nonempty
  have inside := guarded.inside
  obtain ⟨lower, upper, split, below, above⟩ := guarded.entries_eq
  have past : min (address.toNat + e.bytes) lastAddress = address.toNat + e.bytes := by
    unfold lastAddress
    omega
  have found : memory.cells.entries.filter (fun cell ↦
      decide (cell.1.toNat < address.toNat + e.bytes)) = lower ++ [(address, e)] := by
    rw [split, List.filter_append, List.filter_cons_of_pos (by simpa using nonempty),
      List.filter_eq_self.mpr, List.filter_eq_nil_iff.mpr]
    · exact fun cell member ↦ by simpa using above cell member
    · exact fun cell member ↦ decide_eq_true (by have := below cell member; omega)
  have stops : lower.reverse.takeWhile (fun cell ↦
      decide (address.toNat < cell.1.toNat + cell.2.bytes)) = [] := by
    cases order : lower.reverse with
    | nil => rfl
    | cons cell rest =>
      have last := below cell (List.mem_reverse.mp (order ▸ List.mem_cons_self))
      exact List.takeWhile_cons_of_neg (by simpa using last)
  rw [Memory.bindingsIn, past, found, List.reverse_append, List.reverse_singleton,
    List.singleton_append, List.takeWhile_cons_of_pos (by simpa using nonempty), stops]

/-- A read of a guarded range gives the expression, where it has the recorded value. -/
theorem read_eq (guarded : Guarded address e memory.cells) (scalar : e.ty ≠ .struct)
    (sized : e.bytes = e.ty.size) (normal : e.ty.normalize e.value = e.value) (value : Value) :
    memory.read address e.ty value =
      .ok (if e.ty.normalize value = e.value then .symbolic e else .concrete (.of e.ty value)) := by
  have nonempty := guarded.nonempty
  have size : (TypedValue.of e.ty value).bytes = e.bytes :=
    (Memory.bytes_of_scalar scalar).trans sized.symm
  have found : (memory.bindingsIn address e.bytes).isEmpty = false := by
    rw [guarded.bindingsIn_eq]
    rfl
  have parts : (memory.bindingsIn address e.bytes).reverse.mapM (Memory.clip address e.bytes) =
      .ok [(0, e)] := by
    rw [guarded.bindingsIn_eq, List.reverse_singleton, List.mapM_cons, Memory.clip_self]
    rfl
  have notStruct := (CType.isStruct_eq_false_iff e.ty).mpr scalar
  rw [Memory.read, Memory.readReporting]
  simp only [size, if_neg (Nat.ne_of_gt nonempty), found, parts, notStruct, Bool.false_eq_true,
    if_false, ok_bind]
  refine congrArg Except.ok ?_
  have fresh := Memory.isFresh_whole scalar sized normal value
  change Memory.combine (.of e.ty value) ([(0, e)].filter (Memory.isFresh (e.ty.normalize value))) = _
  by_cases same : e.ty.normalize value = e.value
  · rw [List.filter_cons_of_pos (fresh.mpr same), List.filter_nil,
      Memory.combine_self scalar sized, if_pos same]
  · have plain : Memory.combine (.of e.ty value) [] = .concrete (.of e.ty value) := if_neg (by
      simpa [TypedValue.of] using notStruct)
    rw [List.filter_cons_of_neg (mt fresh.mp same), List.filter_nil, plain, if_neg same]

end Guarded

namespace Memory

/-- A scalar that was written or stored is read back as it is, whatever happens around it, until
its bytes are touched or the program has changed them unseen. -/
theorem read_written (memory : Memory) (ranges : Ranges memory.cells) (address : Address) (e : Expr)
    (scalar : e.ty ≠ .struct) (sized : e.bytes = e.ty.size)
    (normal : e.ty.normalize e.value = e.value) (tracked : e.isConcrete = false)
    (inside : address.toNat + e.bytes < 2 ^ 64) :
    memory.store address (.symbolic e) = memory.write address e.ty e ∧
    (Layout memory.cells → ∃ written, memory.write address e.ty e = .ok written) ∧
    ∀ (written : Memory) (actions : List MemoryAction) (after : Memory),
      memory.write address e.ty e = .ok written →
      (∀ action ∈ actions, action.Spares address.toNat (address.toNat + e.bytes)) →
      actions.foldlM MemoryAction.apply written = .ok after → ∀ value,
      after.read address e.ty value =
        .ok (if e.ty.normalize value = e.value then .symbolic e
          else .concrete (.of e.ty value)) := by
  refine ⟨(write_eq_store memory tracked).symm, fun layout ↦ ?_,
    fun written actions after wrote spares ran value ↦ ?_⟩
  · obtain ⟨cleared, ran, -⟩ := concretize_spec layout address e.ty.size
    refine ⟨⟨cleared.cells.insert address e⟩, ?_⟩
    rw [write, (CType.isStruct_eq_false_iff e.ty).mpr scalar, if_neg Bool.false_ne_true,
      if_pos sized, ran]
    rfl
  · have guarded := (Guarded.of_write ranges scalar inside wrote).run spares ran
    exact guarded.read_eq scalar sized normal value

/-- An input of eight bytes. -/
def wideInput : Memory :=
  ⟨.ofList [(0x1002, .mkInput 0 .long 5)]⟩

/-- A number of four bytes. -/
def innerNumber : Expr :=
  .mkInput 1 .int 9

/-- Everything around the number changes, up to its borders. -/
def aroundNumber : List MemoryAction :=
  [.write 0x1002 .short (.mkInput 2 .short 7),
    .store 0x1008 (.symbolic
      (.assemble .struct 3 [(0, .mkInput 3 .uchar 1), (2, .mkInput 4 .uchar 2)] 3)),
    .copy 0x1009 0x1003 .struct 4, .concretize 0x0fff 4, .store 0x1003 (.concrete (.of .uchar 6)),
    .equate]

/-- The number is written into the middle of the input and read back after the changes. -/
theorem read_written_wideInput :
    Ranges wideInput.cells ∧ (innerNumber.ty ≠ .struct ∧ innerNumber.bytes = innerNumber.ty.size ∧
      innerNumber.ty.normalize innerNumber.value = innerNumber.value ∧
      innerNumber.isConcrete = false ∧
      (0x1004 : Address).toNat + innerNumber.bytes < 2 ^ 64) ∧
      ∃ written after, wideInput.write 0x1004 .int innerNumber = .ok written ∧
        (∀ action ∈ aroundNumber, action.Spares 0x1004 0x1008) ∧
        aroundNumber.foldlM MemoryAction.apply written = .ok after ∧
        after.read 0x1004 .int 9 = .ok (.symbolic innerNumber) ∧
        after.read 0x1004 .int 8 = .ok (.concrete (.of .int 8)) := by
  have ranges : Ranges wideInput.cells := by decide +kernel
  have spares : ∀ action ∈ aroundNumber, action.Spares 0x1004 0x1008 := by decide +kernel
  have succeeds : (wideInput.write 0x1004 .int innerNumber >>=
      fun written ↦ aroundNumber.foldlM MemoryAction.apply written).isOk = true := by decide +kernel
  obtain ⟨after, both⟩ : ∃ after, (wideInput.write 0x1004 .int innerNumber >>=
      fun written ↦ aroundNumber.foldlM MemoryAction.apply written) = .ok after := by
    generalize (_ >>= _ : Except Fault Memory) = result at succeeds
    cases result with
    | error fault => contradiction
    | ok after => exact ⟨after, rfl⟩
  obtain ⟨written, wrote, ran⟩ := bind_eq_ok.mp both
  have kept := (read_written wideInput ranges 0x1004 innerNumber (by decide) (by decide) (by decide)
    (by decide) (by decide)).2.2 written aroundNumber after wrote spares ran
  exact ⟨ranges, by decide, written, after, wrote, spares, ran, kept 9, kept 8⟩

end Memory

end Concolic
