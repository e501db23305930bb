import Concolic.Proofs.Machine.Closure
import Concolic.Proofs.Machine.History
import Concolic.Proofs.Memory.Freshness
import Concolic.Proofs.Memory.Leaves

/-!
# Types of recorded values

On every run, whatever is reported to it and however memory is laid out, recorded values are
converted to the types they are recorded at, and scalars have the size of their type.  A read
therefore gives an operand that records the observed value.
-/

namespace Concolic

def TypedValue.IsConverted (typed : TypedValue) : Prop :=
  typed.ty.normalize typed.value = typed.value

namespace Expr

/-- The recorded value is converted to the type of the node, and a scalar has the size of its
type. -/
structure FitsType (e : Expr) : Prop where
  converted : e.IsConverted
  size : e.ty ≠ .struct → e.bytes = e.ty.size

variable {e part : Expr}

theorem fitsType_slice (whole : Expr) (offset bytes : BitVec 32) :
    FitsType (.slice whole offset bytes (byteRange whole.value offset.toNat bytes.toNat)) where
  converted := normalize_byteRange whole offset bytes _ _ _
  size scalar := by
    simp only [Expr.ty] at scalar ⊢
    cases found : CType.ofSize? bytes.toNat false with
    | none => exact absurd (by rw [found]; rfl) scalar
    | some ty => exact (CType.size_of_ofSize? found).1.symm

theorem everywhere_fitsType_mkSlice {offset bytes : BitVec 32} (all : Everywhere FitsType e)
    (cut : e.mkSlice offset bytes = .ok part) : Everywhere FitsType part :=
  mkSlice_closed (fun _ _ _ _ all ↦ ((everywhere_slice ..).mp all).2)
    (fun whole offset bytes all ↦ (everywhere_slice ..).mpr ⟨fitsType_slice whole offset bytes, all⟩)
    all cut

theorem everywhere_fitsType_mkUnary (op : UnaryOp) (all : Everywhere FitsType e) (ty : CType)
    (value : Value) : Everywhere FitsType (mkUnary op e ty value) :=
  (everywhere_unary ..).mpr ⟨⟨ty.normalize_normalize value, fun _ ↦ rfl⟩, all⟩

theorem everywhere_fitsType_convert (all : Everywhere FitsType e) (ty : CType) :
    Everywhere FitsType (Memory.convert e ty) := by
  rcases Memory.convert_cases e ty with ⟨-, same⟩ | cast
  · rwa [same]
  · rw [cast]
    exact everywhere_fitsType_mkUnary _ all ty _

theorem everywhere_fitsType_mkAssemble (observed : TypedValue) {parts : List (BitVec 32 × Expr)}
    (each : ∀ part ∈ parts, Everywhere FitsType part.2) :
    Everywhere FitsType
      (mkAssemble observed.ty (.ofNat 32 observed.bytes) parts observed.value) := by
  refine (everywhere_assemble ..).mpr ⟨⟨observed.ty.normalize_normalize _, fun scalar ↦ ?_⟩,
    fun part member ↦ each part ((mem_sortParts part parts).mp member)⟩
  simp only [Expr.ty] at scalar
  simp only [Expr.bytes, Expr.ty, Memory.bytes_of_scalar scalar, Memory.size_ofNat]

end Expr

open Concolic.Expr (Everywhere FitsType)

namespace Memory

theorem closed_fitsType : Memory.Closed (Everywhere FitsType) where
  cut := Expr.everywhere_fitsType_mkSlice
  converted ty all := Expr.everywhere_fitsType_convert all ty
  part all := ((Expr.everywhere_assemble ..).mp all).2
  assembled observed _ _ each := Expr.everywhere_fitsType_mkAssemble observed each

/-- One fresh part that fills the range, converted, records the observed value. -/
theorem value_convert_of_fresh {e : Expr} {ty : CType} {value : Value} (typed : FitsType e)
    (scalar : ty ≠ .struct) (normal : ty.normalize value = value) (size : e.bytes = ty.size)
    (fresh : isFresh value (0, e) = true) : (convert e ty).value = value := by
  have same : byteRange e.value 0 ty.size = byteRange value 0 ty.size := by
    rwa [isFresh, beq_iff_eq, recordedBytes, observedBytes, size] at fresh
  rw [value_convert scalar size typed.converted, same]
  exact CType.normalize_byteRange_self scalar normal

/-- A read gives an operand that records the observed value. -/
theorem value_readReporting {memory : Memory} {address : Address} {ty : CType} {value : Value}
    {reading : Reading} (all : AllCells (Everywhere FitsType) memory.cells)
    (read : memory.readReporting address ty value = .ok reading) :
    reading.operand.value = ty.normalize value := by
  have normal := ty.normalize_normalize value
  rcases readReporting_inv read with plainly | ⟨parts, used, clips, sub, -, fresh, result⟩
  · rw [plainly]
    rfl
  rw [result]
  by_cases aggregate : ty = .struct
  · subst aggregate
    rw [combine_struct rfl]
    rfl
  rcases combine_cases (show (TypedValue.of ty value).ty ≠ .struct from aggregate) used with
    ⟨-, combined⟩ | ⟨e, single, whole, combined⟩ | ⟨-, combined⟩
  · rw [combined]
    rfl
  · have bound (cell : Address × Expr)
        (member : cell ∈ (memory.bindingsIn address (TypedValue.of ty value).bytes).reverse) :
        Everywhere FitsType cell.2 :=
      all cell.1 cell.2 (get?_of_mem_bindingsIn member)
    have member : (0, e) ∈ used := by simp [single]
    have typed : FitsType e := (closed_fitsType.clips bound clips _ (sub member)).here
    rw [combined]
    exact value_convert_of_fresh typed aggregate normal
      (whole.trans (TypedValue.bytes_of aggregate value)) (fresh aggregate (0, e) member)
  · rw [combined]
    exact normal

end Memory

namespace Machine

theorem everywhere_fitsType_mkConst (ty : CType) (value : Value) :
    Everywhere FitsType (.mkConst ty value) :=
  (Expr.everywhere_leaf rfl).mpr ⟨ty.normalize_normalize value, fun _ ↦ rfl⟩

theorem closed_fitsType : Closed TypedValue.IsConverted (Everywhere FitsType) where
  toClosed := Memory.closed_fitsType
  observed := TypedValue.normalize_of
  unary op _ ty value all := Expr.everywhere_fitsType_mkUnary op all ty value
  binary _ _ _ ty value beside :=
    (Expr.everywhere_binary ..).mpr
      ⟨⟨ty.normalize_normalize value, fun _ ↦ rfl⟩, beside.both everywhere_fitsType_mkConst⟩
  compare _ _ _ ty value beside :=
    (Expr.everywhere_compare ..).mpr
      ⟨⟨ty.normalize_normalize value, fun _ ↦ rfl⟩, beside.both everywhere_fitsType_mkConst⟩
  pointer op _ _ _ value beside :=
    (Expr.everywhere_pointer ..).mpr
      ⟨⟨op.resultType.normalize_normalize value, fun _ ↦ rfl⟩,
        beside.both everywhere_fitsType_mkConst⟩

/-- All operands of a run have types that fit. -/
theorem fitsType_run {policy : PointerPolicy} {inputs : List Value} {events : List Event}
    {final : Machine} (ran : (start policy inputs).run events = .ok final) :
    final.Holds TypedValue.IsConverted (Everywhere FitsType) := by
  refine run_induction ran (holds_start _ _ policy inputs) fun _ _ _ _ _ ih stepped ↦ ?_
  refine holds_step closed_fitsType ih (fun ty address entry _ _ ↦ ?_) stepped
  exact (Expr.everywhere_leaf rfl).mpr ⟨ty.normalize_normalize _, fun _ ↦ rfl⟩

end Machine

end Concolic
