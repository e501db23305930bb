import Concolic.Memory.Read
import Concolic.Proofs.Memory.Store

/-!
# Reading from memory

A read clips every binding that meets the range.  The clipped parts fit into the range, and each
byte of the range has the origin that its part gives it.  What a scalar read makes of the fresh
parts is described by its value on all inputs: the observed value with the bytes under a fresh part
replaced by the bytes of that part.
-/

namespace Concolic

namespace Memory

variable {memory : Memory} {address start : Address} {length : Nat} {e : Expr}

/-- The bytes of a binding inside the range. -/
def clipped (address : Address) (length : Nat) (cell : Address × Expr) : BitVec 32 × Expr :=
  let first := max cell.1.toNat address.toNat
  let past := min (cell.1.toNat + cell.2.bytes) (address.toNat + length)
  (.ofNat 32 (first - address.toNat), cell.2.cut (first - cell.1.toNat) (past - first))

/-- The bytes of all bindings inside the range, in order. -/
def clippedParts (memory : Memory) (address : Address) (length : Nat) :
    List (BitVec 32 × Expr) :=
  (memory.cells.entries.filter fun cell ↦
    decide (Meets address.toNat (address.toNat + length) cell.1 cell.2)).map (clipped address length)

theorem clip_eq_clipped (shallow : e.IsShallow)
    (meets : Meets address.toNat (address.toNat + length) start e) :
    clip address length (start, e) = .ok (clipped address length (start, e)) := by
  obtain ⟨below, above⟩ := meets
  have size := e.bytes_lt
  let first := max start.toNat address.toNat
  let past := min (start.toNat + e.bytes) (address.toNat + length)
  have offset : (BitVec.ofNat 32 (first - start.toNat)).toNat = first - start.toNat :=
    Nat.mod_eq_of_lt (by omega)
  have count : (BitVec.ofNat 32 (past - first)).toNat = past - first :=
    Nat.mod_eq_of_lt (by omega)
  have cut := Expr.mkSlice_eq_cut shallow (.ofNat 32 (first - start.toNat))
    (.ofNat 32 (past - first)) (by rw [offset, count]; omega)
  rw [offset, count] at cut
  rw [clip]
  exact congrArg (fun part ↦ do
    let part ← part
    return (BitVec.ofNat 32 (first - address.toNat), part)) cut

theorem clipped_inside (meets : Meets address.toNat (address.toNat + length) start e) :
    max start.toNat address.toNat - start.toNat +
      (min (start.toNat + e.bytes) (address.toNat + length) - max start.toNat address.toNat) ≤
      e.bytes := by
  unfold Meets at meets
  omega

theorem clipped_bytes (meets : Meets address.toNat (address.toNat + length) start e) :
    (clipped address length (start, e)).2.bytes =
      min (start.toNat + e.bytes) (address.toNat + length) - max start.toNat address.toNat :=
  Expr.bytes_cut (clipped_inside meets)

theorem clipped_offset (narrow : length < 2 ^ 32)
    (meets : Meets address.toNat (address.toNat + length) start e) :
    (clipped address length (start, e)).1.toNat = max start.toNat address.toNat - address.toNat := by
  unfold Meets at meets
  change (BitVec.ofNat 32 (max start.toNat address.toNat - address.toNat)).toNat = _
  exact Nat.mod_eq_of_lt (by omega)

/-- What is known of a clipped part. -/
theorem clipped_spec (layout : Layout memory.cells) (narrow : length < 2 ^ 32)
    (found : memory.cells.get? start = some e)
    (meets : Meets address.toNat (address.toNat + length) start e) :
    (clipped address length (start, e)).1.toNat = max start.toNat address.toNat - address.toNat ∧
      (clipped address length (start, e)).2.IsFlat ∧
      ∀ index, (clipped address length (start, e)).2.origin index =
        e.origin (max start.toNat address.toNat - start.toNat + index) := by
  have flat := layout.flat _ _ found
  have inside := clipped_inside meets
  exact ⟨clipped_offset narrow meets, Expr.isFlat_cut flat inside,
    fun index ↦ Expr.origin_cut flat inside index⟩

theorem mem_clippedParts (part : BitVec 32 × Expr) :
    part ∈ memory.clippedParts address length ↔
      ∃ start e, memory.cells.get? start = some e ∧
        Meets address.toNat (address.toNat + length) start e ∧
        part = clipped address length (start, e) := by
  rw [clippedParts, List.mem_map]
  constructor
  · rintro ⟨⟨start, e⟩, member, rfl⟩
    rw [List.mem_filter, decide_eq_true_iff, WordMap.mem_entries_iff] at member
    exact ⟨start, e, member.1, member.2, rfl⟩
  · rintro ⟨start, e, found, meets, rfl⟩
    refine ⟨(start, e), ?_, rfl⟩
    rw [List.mem_filter, decide_eq_true_iff, WordMap.mem_entries_iff]
    exact ⟨found, meets⟩

theorem covers_clipped_iff (narrow : length < 2 ^ 32)
    (meets : Meets address.toNat (address.toNat + length) start e) (index : Nat) :
    PartCovers (clipped address length (start, e)) index ↔
      index < length ∧ Spans start e (address.toNat + index) := by
  have offset := clipped_offset narrow meets
  have bytes := clipped_bytes meets
  obtain ⟨below, above⟩ := meets
  rw [PartCovers, offset, bytes, Spans]
  omega

/-- The clipped parts are in order, apart from each other and inside the range. -/
theorem partsFit_clippedParts (ranges : Ranges memory.cells) (positive : 0 < length)
    (narrow : length < 2 ^ 32) : PartsFit length (memory.clippedParts address length) := by
  have bound {cell : Address × Expr} (member : cell ∈ memory.cells.entries.filter fun cell ↦
      decide (Meets address.toNat (address.toNat + length) cell.1 cell.2)) :
      memory.cells.get? cell.1 = some cell.2 ∧
        Meets address.toNat (address.toNat + length) cell.1 cell.2 := by
    obtain ⟨present, meets⟩ := List.mem_filter.mp member
    exact ⟨(memory.cells.mem_entries_iff _ _).mp present, by simpa using meets⟩
  constructor
  · refine List.pairwise_map.mpr ((memory.cells.ascending.filter _).imp_of_mem ?_)
    rintro ⟨first, a⟩ ⟨second, b⟩ memberA memberB below
    obtain ⟨foundA, meetsA⟩ : memory.cells.get? first = some a ∧
        Meets address.toNat (address.toNat + length) first a := bound memberA
    obtain ⟨foundB, meetsB⟩ : memory.cells.get? second = some b ∧
        Meets address.toNat (address.toNat + length) second b := bound memberB
    have offsetA := clipped_offset narrow meetsA
    have bytesA := clipped_bytes meetsA
    have offsetB := clipped_offset narrow meetsB
    have apart := ranges.apart _ _ _ _ foundA foundB (BitVec.lt_def.mp below)
    unfold Meets at meetsA meetsB
    omega
  · intro part member
    obtain ⟨start, e, found, meets, rfl⟩ := (mem_clippedParts part).mp member
    have bytes := clipped_bytes meets
    have nonempty := ranges.nonempty _ _ found
    unfold Meets at meets
    omega
  · intro part member
    obtain ⟨start, e, found, meets, rfl⟩ := (mem_clippedParts part).mp member
    have offset := clipped_offset narrow meets
    have bytes := clipped_bytes meets
    have nonempty := ranges.nonempty _ _ found
    unfold Meets at meets
    omega

/-- Every byte of the range has the origin that its part gives it. -/
theorem partOrigin?_clippedParts (layout : Layout memory.cells) (narrow : length < 2 ^ 32)
    {index : Nat} (inside : index < length) :
    partOrigin? (memory.clippedParts address length) index =
      Cells.origin? memory.cells (address.toNat + index) := by
  have fit : PartsFit length (memory.clippedParts address length) :=
    partsFit_clippedParts layout.ranges (Nat.zero_lt_of_lt inside) narrow
  cases here : Cells.origin? memory.cells (address.toNat + index) with
  | none =>
    rw [partOrigin?_eq_none_iff]
    intro part member covers
    obtain ⟨start, e, found, meets, rfl⟩ := (mem_clippedParts part).mp member
    have spans := ((covers_clipped_iff narrow meets index).mp covers).2
    exact (Layout.origin?_eq_none_iff ..).mp here start e found spans
  | some origin =>
    obtain ⟨start, e, found, spans, rfl⟩ := Layout.exists_of_origin? here
    have range : InRange address.toNat (address.toNat + length) (address.toNat + index) := by
      unfold InRange
      omega
    have meets := meets_of_byte range spans
    have covers := (covers_clipped_iff narrow meets index).mpr ⟨inside, spans⟩
    have member := (mem_clippedParts (clipped address length (start, e))).mpr
      ⟨start, e, found, meets, rfl⟩
    obtain ⟨offset, -, origin⟩ := clipped_spec layout narrow found meets
    rw [partOrigin?_of_covers fit member covers, origin, offset]
    unfold Spans at spans
    unfold PartCovers at covers
    congr 2
    omega

theorem flat_clippedParts (layout : Layout memory.cells) (narrow : length < 2 ^ 32)
    {part : BitVec 32 × Expr} (member : part ∈ memory.clippedParts address length) :
    part.2.IsFlat := by
  obtain ⟨start, e, found, meets, rfl⟩ := (mem_clippedParts part).mp member
  exact (clipped_spec layout narrow found meets).2.1

theorem all_clippedParts {P : Expr → Prop} (layout : Layout memory.cells) (positive : 0 < length)
    (closed : CutClosed P) (all : AllCells P memory.cells) {part : BitVec 32 × Expr}
    (member : part ∈ memory.clippedParts address length) : P part.2 := by
  obtain ⟨start, e, found, meets, rfl⟩ := (mem_clippedParts part).mp member
  have nonempty := layout.nonempty _ _ found
  obtain ⟨below, above⟩ := meets
  have holds := closed e (max start.toNat address.toNat - start.toNat)
    (min (start.toNat + e.bytes) (address.toNat + length) - max start.toNat address.toNat)
    (layout.flat _ _ found) (all start e found) (by omega) (by omega)
  exact holds

/-! ## What a read gives -/

/-- The parts that a read of a range meets; an empty range meets none. -/
def partsIn (memory : Memory) (address : Address) (length : Nat) : List (BitVec 32 × Expr) :=
  if length = 0 then [] else memory.clippedParts address length

theorem partsFit_partsIn (ranges : Ranges memory.cells) (address : Address)
    (narrow : length < 2 ^ 32) : PartsFit length (memory.partsIn address length) := by
  unfold partsIn
  split
  · exact PartsFit.nil length
  · exact partsFit_clippedParts ranges (by omega) narrow

theorem partOrigin?_partsIn (layout : Layout memory.cells) (address : Address)
    (narrow : length < 2 ^ 32) {index : Nat} (inside : index < length) :
    partOrigin? (memory.partsIn address length) index =
      Cells.origin? memory.cells (address.toNat + index) := by
  rw [partsIn, if_neg (by omega)]
  exact partOrigin?_clippedParts layout narrow inside

theorem flat_partsIn (layout : Layout memory.cells) (narrow : length < 2 ^ 32)
    {part : BitVec 32 × Expr} (member : part ∈ memory.partsIn address length) :
    part.2.IsFlat := by
  unfold partsIn at member
  split at member
  · simp at member
  · exact flat_clippedParts layout narrow member

theorem all_partsIn {P : Expr → Prop} (layout : Layout memory.cells) (closed : CutClosed P)
    (all : AllCells P memory.cells) {part : BitVec 32 × Expr}
    (member : part ∈ memory.partsIn address length) : P part.2 := by
  unfold partsIn at member
  split at member
  · simp at member
  · exact all_clippedParts layout (by omega) closed all member

theorem mapM_clip_eq (ranges : Ranges memory.cells) (shallow : AllCells Expr.IsShallow memory.cells)
    (address : Address) (length : Nat) :
    (memory.bindingsIn address length).reverse.mapM (clip address length) =
      .ok (memory.clippedParts address length) := by
  rw [bindingsIn_eq_filter ranges, List.reverse_reverse, clippedParts]
  have each : ∀ cell ∈ memory.cells.entries.filter fun cell ↦
      decide (Meets address.toNat (address.toNat + length) cell.1 cell.2),
      clip address length cell = .ok (clipped address length cell) := by
    rintro ⟨start, e⟩ member
    obtain ⟨present, meets⟩ := List.mem_filter.mp member
    have found := (memory.cells.mem_entries_iff start e).mp present
    exact clip_eq_clipped (shallow _ _ found) (by simpa using meets)
  generalize memory.cells.entries.filter _ = cells at each
  induction cells with
  | nil => rfl
  | cons cell rest ih =>
    obtain ⟨here, later⟩ := List.forall_mem_cons.mp each
    rw [List.mapM_cons, here, ih later]
    rfl

/-- The operand that a read gives for an observed value: an aggregate takes all parts, a scalar the
fresh ones. -/
def loaded (memory : Memory) (address : Address) (observed : TypedValue) : Operand :=
  let parts := memory.partsIn address observed.bytes
  if observed.ty.isStruct then
    if parts = [] then .concrete observed else combine observed parts
  else combine observed (parts.filter (isFresh observed.value))

theorem isEmpty_bindingsIn (ranges : Ranges memory.cells) (address : Address) (length : Nat) :
    (if length = 0 then [] else memory.bindingsIn address length).isEmpty = true ↔
      memory.partsIn address length = [] := by
  unfold partsIn
  split
  · simp
  · rw [bindingsIn_eq_filter ranges, clippedParts]
    simp

/-- Reads never fail. -/
theorem readReporting_spec (ranges : Ranges memory.cells)
    (shallow : AllCells Expr.IsShallow memory.cells) (address : Address) (ty : CType)
    (value : Value) :
    ∃ reading, memory.readReporting address ty value = .ok reading ∧
      reading.operand = memory.loaded address (.of ty value) := by
  have empty := isEmpty_bindingsIn ranges address (TypedValue.of ty value).bytes
  have sameType : (TypedValue.of ty value).ty = ty := rfl
  simp only [readReporting]
  by_cases none : memory.partsIn address (TypedValue.of ty value).bytes = []
  · rw [if_pos (empty.mpr none)]
    refine ⟨_, rfl, ?_⟩
    simp only [loaded, none, if_true, List.filter_nil]
    split
    · rfl
    · next scalar => simp only [combine, if_neg scalar]
  · rw [if_neg fun isEmpty ↦ none (empty.mp isEmpty)]
    have some_bytes : (TypedValue.of ty value).bytes ≠ 0 := by
      intro zero
      exact none (if_pos zero)
    have parts : memory.partsIn address (TypedValue.of ty value).bytes =
        memory.clippedParts address (TypedValue.of ty value).bytes := if_neg some_bytes
    rw [if_neg some_bytes, mapM_clip_eq ranges shallow]
    simp only [loaded, sameType, if_neg none, ← parts]
    cases ty.isStruct <;> exact ⟨_, rfl, rfl⟩

theorem operand_of_read {ty : CType} {value : Value} {reading : Reading}
    (layout : Layout memory.cells) (read : memory.readReporting address ty value = .ok reading) :
    reading.operand = memory.loaded address (.of ty value) := by
  obtain ⟨expected, ran, operand⟩ :=
    readReporting_spec layout.ranges layout.shallow address ty value
  have same : reading = expected := Except.ok.inj (read.symm.trans ran)
  rw [same, operand]

/-- A property of expressions that reading from memory keeps: it passes to cut, converted and
assembled bytes. -/
structure ReadClosed (admissible : CType → Prop) (P : Expr → Prop) : Prop where
  cut : CutClosed P
  convert : ∀ e ty, admissible ty → ty ≠ .struct → e.bytes = ty.size → P e → P (convert e ty)
  assemble : ∀ ty parts value, admissible ty → ty ≠ .struct → ty.normalize value = value →
    PartsFit ty.size parts → (∀ part ∈ parts, P part.2 ∧ isFresh value part = true) →
    P (.assemble ty (.ofNat 32 ty.size) parts value)

theorem convert_ty (e : Expr) (ty : CType) : (convert e ty).ty = ty := by
  unfold convert
  split
  · assumption
  · rfl

theorem convert_bytes {ty : CType} (size : e.bytes = ty.size) : (convert e ty).bytes = ty.size := by
  unfold convert
  split
  · exact size
  · rfl

theorem convert_isFlat (flat : e.IsFlat) (ty : CType) : (convert e ty).IsFlat := by
  unfold convert
  split
  · exact flat
  · trivial

theorem size_ofNat (ty : CType) : (BitVec.ofNat 32 ty.size).toNat = ty.size := by
  have := ty.size_le_eight
  exact Nat.mod_eq_of_lt (by omega)

/-- Assembling fitting parts over a converted value. -/
theorem mkAssemble_eq {size : Nat} {parts : List (BitVec 32 × Expr)} (fit : PartsFit size parts)
    {ty : CType} {value : Value} (normal : ty.normalize value = value) (bytes : BitVec 32) :
    Expr.mkAssemble ty bytes parts value = .assemble ty bytes parts value := by
  rw [Expr.mkAssemble, Expr.sortParts_of_ordered fit.ordered, normal]

/-- What a scalar read makes of its parts: the observed value if there are none, one part that
fills the range, or the parts assembled. -/
theorem combine_cases {observed : TypedValue} (scalar : observed.ty ≠ .struct)
    (parts : List (BitVec 32 × Expr)) :
    parts = [] ∧ combine observed parts = .concrete observed ∨
      (∃ e, parts = [(0, e)] ∧ e.bytes = observed.bytes ∧
        combine observed parts = .symbolic (convert e observed.ty)) ∨
      parts ≠ [] ∧ combine observed parts =
        .symbolic (.mkAssemble observed.ty (.ofNat 32 observed.bytes) parts observed.value) := by
  have notStruct := (CType.isStruct_eq_false_iff _).mpr scalar
  unfold combine
  rw [notStruct, if_neg Bool.false_ne_true]
  match parts with
  | [] => exact .inl ⟨rfl, rfl⟩
  | [(offset, e)] =>
    by_cases fills : offset = 0 ∧ e.bytes = observed.bytes
    · obtain ⟨rfl, size⟩ := fills
      exact .inr (.inl ⟨e, rfl, size, if_pos ⟨rfl, size⟩⟩)
    · exact .inr (.inr ⟨List.cons_ne_nil _ _, if_neg fills⟩)
  | first :: second :: rest => exact .inr (.inr ⟨List.cons_ne_nil _ _, rfl⟩)

theorem combine_struct {observed : TypedValue} (aggregate : observed.ty = .struct)
    (parts : List (BitVec 32 × Expr)) :
    combine observed parts =
      .symbolic (.mkAssemble .struct (.ofNat 32 observed.bytes) parts observed.value) := by
  unfold combine
  rw [aggregate]
  exact if_pos rfl

theorem bytes_of_scalar {observed : TypedValue} (scalar : observed.ty ≠ .struct) :
    observed.bytes = observed.ty.size := by
  rw [TypedValue.bytes, (CType.isStruct_eq_false_iff _).mpr scalar, if_neg Bool.false_ne_true]

/-- Reading keeps properties of expressions that are closed under what it does. -/
theorem formed_loaded {admissible : CType → Prop} {P : Expr → Prop}
    (closed : ReadClosed admissible P) (layout : Layout memory.cells)
    (all : AllCells P memory.cells) (address : Address) {observed : TypedValue}
    (normal : observed.ty.normalize observed.value = observed.value)
    (allowed : observed.ty ≠ .struct → admissible observed.ty)
    (narrow : observed.bytes < 2 ^ 32) : (memory.loaded address observed).Formed P := by
  have fit := partsFit_partsIn layout.ranges address narrow
  have holds (part : BitVec 32 × Expr) (member : part ∈ memory.partsIn address observed.bytes) :
      P part.2 := all_partsIn layout closed.cut all member
  have flat (part : BitVec 32 × Expr) (member : part ∈ memory.partsIn address observed.bytes) :
      part.2.IsFlat := flat_partsIn layout narrow member
  unfold loaded
  by_cases aggregate : observed.ty = .struct
  · have same : (BitVec.ofNat 32 observed.bytes).toNat = observed.bytes :=
      Nat.mod_eq_of_lt narrow
    rw [aggregate, if_pos (by rfl)]
    split
    · exact .concrete normal
    · rw [aggregate] at normal
      rw [combine_struct aggregate, mkAssemble_eq fit normal]
      exact .region (same.symm ▸ fit) flat holds
  · have size := bytes_of_scalar aggregate
    have fresh (part : BitVec 32 × Expr)
        (member : part ∈ (memory.partsIn address observed.bytes).filter
          (isFresh observed.value)) :
        part ∈ memory.partsIn address observed.bytes ∧ isFresh observed.value part = true :=
      List.mem_filter.mp member
    rw [if_neg (by rw [(CType.isStruct_eq_false_iff _).mpr aggregate]; exact Bool.false_ne_true)]
    rcases combine_cases aggregate ((memory.partsIn address observed.bytes).filter
      (isFresh observed.value)) with ⟨-, result⟩ | ⟨e, single, whole, result⟩ | ⟨-, result⟩
    · rw [result]
      exact .concrete normal
    · rw [result]
      obtain ⟨member, -⟩ := fresh (0, e) (by rw [single]; simp)
      have bytes : e.bytes = observed.ty.size := whole.trans size
      refine .scalar (convert_isFlat (flat _ member) _) ?_ ?_
        (closed.convert e _ (allowed aggregate) aggregate bytes (holds _ member))
      · rw [convert_ty]
        exact aggregate
      · rw [convert_bytes bytes, convert_ty]
    · rw [result, mkAssemble_eq (fit.filter _) normal, size]
      refine .scalar trivial aggregate (size_ofNat observed.ty) ?_
      refine closed.assemble _ _ _ (allowed aggregate) aggregate normal ?_ fun part member ↦ ?_
      · rw [← size]
        exact fit.filter _
      · rw [← size] at member
        exact ⟨holds part (fresh part member).1, (fresh part member).2⟩

end Memory

end Concolic
