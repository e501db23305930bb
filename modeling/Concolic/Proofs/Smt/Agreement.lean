import Concolic.Expr.Leaves
import Concolic.Proofs.Expr.WellFormed
import Concolic.Proofs.Smt.Builders

/-!
# The encoding agrees with evaluation

The encoding of a well-formed scalar expression never fails, declares the inputs of the expression
from left to right and gives a term that means the low bits of the value of the expression, for
every assignment that gives the inputs the bits that evaluation reads for them.  As a condition the
expression means whether its value is different from zero.
-/

namespace Concolic.Smt

/-! ## Running an encoder -/

namespace Context

/-- Refers to the inputs among some leaves, in order. -/
def withLeaves (context : Context) (leaves : List Leaf) : Context :=
  leaves.foldl
    (fun context leaf ↦
      match leaf with
      | .input id ty _ => context.reference (.input id) ty.bits
      | .const .. => context)
    context

theorem withLeaves_append (context : Context) (first second : List Leaf) :
    context.withLeaves (first ++ second) = (context.withLeaves first).withLeaves second :=
  List.foldl_append

end Context

namespace Encoder

variable {α β : Type}

/-- The encoder gives the result in every context, to which it adds the inputs among the leaves. -/
def Emits (encoder : Encoder α) (result : α) (leaves : List Leaf) : Prop :=
  ∀ context, encoder.runIn context = (.ok result, context.withLeaves leaves)

theorem emits_pure (result : α) : Emits (pure result : Encoder α) result [] :=
  fun _ ↦ rfl

theorem runIn_bind (encoder : Encoder α) (next : α → Encoder β) (context : Context) :
    (encoder >>= next).runIn context =
      match encoder.runIn context with
      | (.ok result, declared) => (next result).runIn declared
      | (.error fault, declared) => (.error fault, declared) := by
  simp only [runIn, ExceptT.run_bind, StateT.run_bind]
  rcases (ExceptT.run encoder).run context with ⟨_ | _, declared⟩ <;> rfl

theorem Emits.bind {encoder : Encoder α} {next : α → Encoder β} {first : α} {second : β}
    {leaves others : List Leaf} (here : Emits encoder first leaves)
    (there : Emits (next first) second others) :
    Emits (encoder >>= next) second (leaves ++ others) := by
  intro context
  rw [runIn_bind, here context, Context.withLeaves_append]
  exact there _

theorem Emits.map {encoder : Encoder α} {result : α} {leaves : List Leaf}
    (here : Emits encoder result leaves) (f : α → β) :
    Emits (do return f (← encoder)) (f result) leaves := by
  have both : Emits (encoder >>= fun value ↦ pure (f value)) (f result) (leaves ++ []) :=
    here.bind (emits_pure (f result))
  rwa [List.append_nil] at both

theorem emits_constant (id : InputId) (ty : CType) (value : Value) :
    Emits (constant (.input id) ty.bits) (.symbol (.input id)) [.input id ty value] :=
  fun _ ↦ rfl

end Encoder

/-! ## What an encoder denotes -/

/-- Every input among the leaves has the low bits of the value that evaluation reads for it. -/
def Suits (env : Environment) (inputs : List Value) (leaves : List Leaf) : Prop :=
  ∀ id ty value, .input id ty value ∈ leaves →
    env (.input id) =
      some (.word ty.bits ((Expr.evaluate inputs (.input id ty value)).setWidth ty.bits))

theorem Suits.mono {env : Environment} {inputs : List Value} {leaves others : List Leaf}
    (suits : Suits env inputs leaves) (sub : ∀ leaf ∈ others, leaf ∈ leaves) :
    Suits env inputs others :=
  fun id ty value present ↦ suits id ty value (sub _ present)

/-- The encoder emits a term that means what is given for each vector of inputs. -/
def Denotes (encoder : Encoder Term) (leaves : List Leaf) (meaning : List Value → Meaning) :
    Prop :=
  ∃ term, encoder.Emits term leaves ∧
    ∀ env inputs, Suits env inputs leaves → term.meaning env = some (meaning inputs)

namespace Denotes

variable {encoder second : Encoder Term} {leaves others : List Leaf}
  {meaning meaning' result : List Value → Meaning}

theorem map (here : Denotes encoder leaves meaning) {f : Term → Term}
    (apply : ∀ env inputs term, term.meaning env = some (meaning inputs) →
      (f term).meaning env = some (result inputs)) :
    Denotes (do return f (← encoder)) leaves result := by
  obtain ⟨term, emits, means⟩ := here
  exact ⟨f term, emits.map f, fun env inputs suits ↦ apply env inputs _ (means env inputs suits)⟩

theorem map₂ (first : Denotes encoder leaves meaning) (later : Denotes second others meaning')
    {f : Term → Term → Term}
    (apply : ∀ env inputs left right, left.meaning env = some (meaning inputs) →
      right.meaning env = some (meaning' inputs) →
      (f left right).meaning env = some (result inputs)) :
    Denotes (do
      let lhs ← encoder
      let rhs ← second
      return f lhs rhs) (leaves ++ others) result := by
  obtain ⟨left, emits, means⟩ := first
  obtain ⟨right, emits', means'⟩ := later
  refine ⟨f left right, emits.bind (emits'.map (f left)), fun env inputs suits ↦ ?_⟩
  refine apply env inputs _ _ (means env inputs (suits.mono ?_))
    (means' env inputs (suits.mono ?_)) <;> simp +contextual

theorem congr (here : Denotes encoder leaves meaning)
    (same : ∀ inputs, meaning inputs = result inputs) : Denotes encoder leaves result := by
  obtain ⟨term, emits, means⟩ := here
  exact ⟨term, emits, fun env inputs suits ↦ by rw [means env inputs suits, same]⟩

end Denotes

/-! ## Nodes -/

/-- The encoding of an expression as a word has the low bits of its value, and as a condition it
says whether its value is different from zero. -/
structure Agrees (e : Expr) : Prop where
  word : Denotes (encoding e).word e.leaves fun inputs ↦
    .word e.bits ((e.evaluate inputs).setWidth e.bits)
  condition : Denotes (encoding e).condition e.leaves fun inputs ↦
    .truth (e.evaluate inputs != 0)

namespace Agrees

variable {e : Expr}

/-- A node that is encoded as a word is true where its canonical value is not zero. -/
theorem ofWord {word : Encoder Term} (shape : encoding e = .ofWord word e.bits)
    (positive : 0 < e.bits) (canonical : ∀ inputs, e.IsCanonical (e.evaluate inputs))
    (means : Denotes word e.leaves fun inputs ↦
      .word e.bits ((e.evaluate inputs).setWidth e.bits)) : Agrees e := by
  refine ⟨by rw [shape]; exact means, ?_⟩
  rw [shape]
  refine means.map fun env inputs term operand ↦ ?_
  rw [Term.meaning_isNonzero positive operand]
  have zero := setWidth_eq_zero_iff_of_canonical (canonical inputs) positive
  congr 2
  rw [Bool.eq_iff_iff, bne_iff_ne, bne_iff_ne, ne_eq, ne_eq, zero]

/-- A node that is encoded as a truth value has the value 1 or 0. -/
theorem ofCondition {condition : Encoder Term} (truth : List Value → Bool)
    (shape : encoding e = .ofCondition condition e.bits) (positive : 0 < e.bits)
    (value : ∀ inputs, e.evaluate inputs = flag (truth inputs))
    (means : Denotes condition e.leaves fun inputs ↦ .truth (truth inputs)) : Agrees e := by
  constructor
  · rw [shape]
    refine means.map fun env inputs term operand ↦ ?_
    rw [Term.meaning_ofCondition positive operand, value]
  · rw [shape]
    refine means.congr fun inputs ↦ ?_
    rw [value, flag_ne_zero]

/-- The word of a node at another width means the low bits of its value there. -/
theorem resized (agrees : Agrees e) (positive : 0 < e.bits)
    (canonical : ∀ inputs, e.IsCanonical (e.evaluate inputs)) {target : Nat}
    (nonempty : 0 < target) (narrow : target ≤ 64) :
    Denotes ((encoding e).resized e target) e.leaves fun inputs ↦
      .word target ((e.evaluate inputs).setWidth target) := by
  refine agrees.word.map fun env inputs term operand ↦ ?_
  rw [Term.meaning_resize e.isSigned operand positive nonempty narrow, canonical inputs]

end Agrees

/-! ## Assembled values -/

/-- A part means the bytes of the whole that it covers. -/
theorem meaning_part {env : Environment} {inputs : List Value} {term : Term} {offset : BitVec 32}
    {e : Expr} {whole : Value}
    (means : term.meaning env = some (.word e.bits ((e.evaluate inputs).setWidth e.bits)))
    (covered : ∀ index, PartCovers (offset, e) index →
      byteAt whole index = byteAt (e.evaluate inputs) (index - offset.toNat)) :
    term.meaning env = some (.word (8 * (offset.toNat + e.bytes - offset.toNat))
      (whole.extractLsb' (8 * offset.toNat) (8 * (offset.toNat + e.bytes - offset.toNat)))) := by
  have length : offset.toNat + e.bytes - offset.toNat = e.bytes := by omega
  have low : whole.extractLsb' (8 * offset.toNat) (8 * e.bytes) =
      (e.evaluate inputs).setWidth (8 * e.bytes) := by
    refine (extractLsb'_eq_setWidth_iff whole _ offset.toNat e.bytes).mpr fun index below ↦ ?_
    have covers : PartCovers (offset, e) (offset.toNat + index) := by
      constructor <;> simp only [] <;> omega
    rw [covered _ covers, Nat.add_sub_cancel_left]
  rw [means, length, low]
  rfl

/-- The pieces of an assembled value stack up to the bytes from `first` on. -/
theorem emits_encodePieces (value : Value) {size : Nat} {parts : List (BitVec 32 × Expr)}
    (fit : PartsFit size parts) (agree : ∀ part ∈ parts, Agrees part.2) {first : Nat}
    (started : ∀ part ∈ parts, first ≤ part.1.toNat) (inside : first ≤ size) :
    ∃ pieces, (encodePieces value size parts first).Emits pieces (Expr.leavesOfParts parts) ∧
      ∀ env inputs whole, Suits env inputs (Expr.leavesOfParts parts) →
        (∀ part ∈ parts, ∀ index, PartCovers part index →
          byteAt whole index = byteAt (part.2.evaluate inputs) (index - part.1.toNat)) →
        (∀ index, first ≤ index → index < size → (∀ part ∈ parts, ¬PartCovers part index) →
          byteAt whole index = byteAt value index) →
        Stacked env whole first size pieces := by
  induction parts generalizing first with
  | nil =>
    refine ⟨if first < size then [.filler value first size] else [], fun _ ↦ rfl, ?_⟩
    intro env inputs whole suits covered bare
    have top : Stacked env whole size size [] := .nil size
    have filled := top.fill inside fun index low high ↦ bare index low high (by simp)
    rwa [List.append_nil] at filled
  | cons part rest ih =>
    obtain ⟨offset, e⟩ := part
    have bytes : 0 < e.bytes := fit.nonempty (offset, e) (by simp)
    have ends : offset.toNat + e.bytes ≤ size := fit.inside (offset, e) (by simp)
    have starts : first ≤ offset.toNat := started (offset, e) (by simp)
    have later (other : BitVec 32 × Expr) (member : other ∈ rest) :
        offset.toNat + e.bytes ≤ other.1.toNat := fit.head_le member
    obtain ⟨term, emits, means⟩ := (agree (offset, e) (by simp)).word
    obtain ⟨above, emitsAbove, stacked⟩ :=
      ih fit.tail (fun part member ↦ agree part (by simp [member])) later ends
    let gap := if first < offset.toNat then [Term.filler value first offset.toNat] else []
    refine ⟨gap ++ term :: above, ?_, ?_⟩
    · exact Encoder.Emits.bind emits (Encoder.Emits.map emitsAbove fun above ↦ gap ++ term :: above)
    · intro env inputs whole suits covered bare
      have own : term.meaning env = some (.word (8 * (offset.toNat + e.bytes - offset.toNat))
          (whole.extractLsb' (8 * offset.toNat)
            (8 * (offset.toNat + e.bytes - offset.toNat)))) :=
        meaning_part
          (means env inputs (suits.mono fun leaf present ↦ by simp [Expr.leavesOfParts, present]))
          (covered (offset, e) (by simp))
      have stackedAbove : Stacked env whole (offset.toNat + e.bytes) size above := by
        refine stacked env inputs whole
          (suits.mono fun leaf present ↦ by simp [Expr.leavesOfParts, present])
          (fun part member ↦ covered part (by simp [member])) fun index low high apart ↦ ?_
        refine bare index (by omega) high (List.forall_mem_cons.mpr ⟨?_, apart⟩)
        simp only [PartCovers]
        omega
      refine (Stacked.cons (by omega) own stackedAbove).fill starts fun index low high ↦ ?_
      refine bare index low (by omega) (List.forall_mem_cons.mpr ⟨?_, fun other member ↦ ?_⟩)
      · simp only [PartCovers]
        omega
      · have := later other member
        unfold PartCovers
        omega

/-! ## All nodes -/

section Nodes

open Concolic.Expr

variable {op : UnaryOp} {e l r : Expr} {ty : CType} {value : Value}

theorem agrees_input (id : InputId) (encodable : Encodable (.input id ty value)) :
    Agrees (.input id ty value) := by
  refine Agrees.ofWord rfl (CType.bits_pos encodable.1) encodable.isCanonical_evaluate ?_
  refine ⟨_, Encoder.emits_constant id ty value, fun env inputs suits ↦ ?_⟩
  exact suits id ty value (by simp [leaves])

theorem agrees_const (encodable : Encodable (.const ty value)) : Agrees (.const ty value) := by
  have positive := CType.bits_pos encodable.1
  refine Agrees.ofWord rfl positive encodable.isCanonical_evaluate ?_
  refine ⟨_, Encoder.emits_pure _, fun env inputs _ ↦ ?_⟩
  exact Term.meaning_constant env value positive

/-- The word of an encodable tree at another width. -/
theorem Agrees.atWidth (agrees : Agrees e) (all : Everywhere Encodable e) {target : Nat}
    (nonempty : 0 < target) (narrow : target ≤ 64) :
    Denotes ((encoding e).resized e target) e.leaves fun inputs ↦
      .word target ((e.evaluate inputs).setWidth target) :=
  agrees.resized (bits_of_encodable all).1 all.here.isCanonical_evaluate nonempty narrow

/-- A cast reads the word of its operand as signed or as unsigned. -/
theorem agrees_cast (signed : Bool) (agrees : Agrees e) (all : Everywhere Encodable e)
    (shape : encoding (.unary op e ty value) =
      .ofWord (return (← (encoding e).word).resize e.bits ty.bits signed) ty.bits)
    (apply : ∀ operand, op.apply ty e.bits operand = ty.normalize (extend signed e.bits operand))
    (encodable : Encodable (.unary op e ty value)) (notBool : ty ≠ .bool) :
    Agrees (.unary op e ty value) := by
  have positive := CType.bits_pos encodable.1
  refine Agrees.ofWord shape positive encodable.isCanonical_evaluate ?_
  refine Denotes.map agrees.word fun env inputs term operand ↦ ?_
  rw [Term.meaning_resize signed operand (bits_of_encodable all).1 positive ty.bits_le]
  show _ = some (Meaning.word ty.bits ((op.apply ty e.bits (e.evaluate inputs)).setWidth ty.bits))
  rw [apply, CType.setWidth_normalize notBool]

theorem agrees_unary (agrees : Agrees e) (all : Everywhere Encodable e)
    (encodable : Encodable (.unary op e ty value)) : Agrees (.unary op e ty value) := by
  have positive := CType.bits_pos encodable.1
  have canonical := all.here.isCanonical_evaluate
  cases op with
  | negate =>
    have notBool : ty ≠ .bool := fun truth ↦ by cases encodable.2 truth
    refine Agrees.ofWord rfl positive encodable.isCanonical_evaluate ?_
    refine Denotes.map (agrees.atWidth all positive ty.bits_le) fun env inputs term operand ↦ ?_
    rw [evaluate, show (unary .negate e ty value).bits = ty.bits from rfl,
      UnaryOp.setWidth_apply_negate notBool]
    simp [Term.meaning, operand, Meaning.mapWord]
  | bitwiseNot =>
    have notBool : ty ≠ .bool := fun truth ↦ by cases encodable.2 truth
    refine Agrees.ofWord rfl positive encodable.isCanonical_evaluate ?_
    refine Denotes.map (agrees.atWidth all positive ty.bits_le) fun env inputs term operand ↦ ?_
    rw [evaluate, show (unary .bitwiseNot e ty value).bits = ty.bits from rfl,
      UnaryOp.setWidth_apply_bitwiseNot notBool]
    simp [Term.meaning, operand, Meaning.mapWord]
  | logicalNot =>
    refine Agrees.ofCondition (fun inputs ↦ !(e.evaluate inputs != 0)) rfl positive
      (fun inputs ↦ ?_) ?_
    · have zero := setWidth_eq_zero_iff_of_canonical (canonical inputs) (bits_of_encodable all).1
      rw [evaluate, UnaryOp.apply_logicalNot]
      congr 1
      rw [Bool.eq_iff_iff, beq_iff_eq, zero]
      simp
    · exact Denotes.map agrees.condition fun env inputs term operand ↦ meaning_negation operand
  | unsignedCast =>
    exact agrees_cast false agrees all rfl (fun _ ↦ rfl) encodable
      fun truth ↦ by cases encodable.2 truth
  | signedCast =>
    exact agrees_cast true agrees all rfl (fun _ ↦ rfl) encodable
      fun truth ↦ by cases encodable.2 truth

theorem agrees_binary (op : BinaryOp) (left : Agrees l) (right : Agrees r)
    (allLeft : Everywhere Encodable l) (allRight : Everywhere Encodable r)
    (encodable : Encodable (.binary op l r ty value)) : Agrees (.binary op l r ty value) := by
  have positive := CType.bits_pos encodable.1
  refine Agrees.ofWord rfl positive encodable.isCanonical_evaluate ?_
  refine Denotes.map₂ (left.atWidth allLeft positive ty.bits_le)
    (right.atWidth allRight positive ty.bits_le) fun env inputs lhs rhs first second ↦ ?_
  rw [evaluate, show (binary op l r ty value).bits = ty.bits from rfl,
    op.setWidth_apply encodable.2 encodable.1]
  exact meaning_binary (bitOp op) first second

theorem agrees_compare (op : CompareOp) (left : Agrees l) (right : Agrees r)
    (allLeft : Everywhere Encodable l) (allRight : Everywhere Encodable r)
    (encodable : Encodable (.compare op l r ty value)) : Agrees (.compare op l r ty value) := by
  have leftBits := bits_of_encodable allLeft
  have rightBits := bits_of_encodable allRight
  have positive : 0 < max l.bits r.bits := by omega
  have narrow : max l.bits r.bits ≤ 64 := by omega
  refine Agrees.ofCondition
    (fun inputs ↦ op.apply (max l.bits r.bits) (l.evaluate inputs) (r.evaluate inputs))
    rfl (CType.bits_pos encodable) (fun inputs ↦ ty.normalize_flag _) ?_
  refine Denotes.map₂ (left.atWidth allLeft positive narrow)
    (right.atWidth allRight positive narrow) fun env inputs lhs rhs first second ↦ ?_
  rw [op.apply_eq_holds _ _ positive narrow]
  exact meaning_comparison op first second

theorem agrees_pointer (op : PointerOp) (size : BitVec 64) (left : Agrees l) (right : Agrees r)
    (allLeft : Everywhere Encodable l) (allRight : Everywhere Encodable r) :
    Agrees (.pointer op l r size value) := by
  have bits : (pointer op l r size value).bits = 64 := by
    cases op <;> rfl
  have encodable : Encodable (.pointer op l r size value) := trivial
  refine Agrees.ofWord rfl (by omega) encodable.isCanonical_evaluate ?_
  refine Denotes.map₂ (left.atWidth allLeft (by decide) (by decide))
    (right.atWidth allRight (by decide) (by decide)) fun env inputs lhs rhs first second ↦ ?_
  have wholeLeft : lhs.meaning env = some (.word 64 ((l.evaluate inputs).setWidth 64)) := first
  have wholeRight : rhs.meaning env = some (.word 64 ((r.evaluate inputs).setWidth 64)) := second
  rw [BitVec.setWidth_eq] at wholeLeft wholeRight
  rw [evaluate, bits, BitVec.setWidth_eq]
  exact meaning_pointerArithmetic op size wholeLeft wholeRight

theorem agrees_slice {offset bytes : BitVec 32} (agrees : Agrees e)
    (encodable : Encodable (.slice e offset bytes value)) :
    Agrees (.slice e offset bytes value) := by
  obtain ⟨nonempty, inside⟩ := encodable
  have bits : (slice e offset bytes value).bits = 8 * bytes.toNat := rfl
  refine Agrees.ofWord rfl (by omega) (Encodable.isCanonical_evaluate ⟨nonempty, inside⟩) ?_
  refine Denotes.map agrees.word fun env inputs term operand ↦ ?_
  have low := Term.meaning_extract (8 * offset.toNat) (8 * bytes.toNat) operand
    (by omega) (by unfold Expr.bits; omega)
  rw [← Nat.mul_add] at low
  rw [low, evaluate, bits]
  refine congrArg (fun word ↦ some (Meaning.word _ word)) ?_
  rw [extractLsb'_eq_setWidth_iff]
  intro index below
  rw [byteAt_byteRange, if_pos below]

theorem agrees_assemble {size : BitVec 32} {parts : List (BitVec 32 × Expr)}
    (agree : ∀ part ∈ parts, Agrees part.2) (encodable : Encodable (.assemble ty size parts value)) :
    Agrees (.assemble ty size parts value) := by
  obtain ⟨scalar, notBool, sized, fit⟩ := encodable
  have wide := ty.size_le_eight
  have some_bytes := CType.size_pos scalar
  have bits : (assemble ty size parts value).bits = 8 * size.toNat := rfl
  have notStruct := (CType.isStruct_eq_false_iff ty).mpr scalar
  refine Agrees.ofWord rfl (by omega)
    (Encodable.isCanonical_evaluate ⟨scalar, notBool, sized, fit⟩) ?_
  obtain ⟨pieces, emits, stacked⟩ :=
    emits_encodePieces value fit agree (fun _ _ ↦ Nat.zero_le _) (Nat.zero_le size.toNat)
  refine ⟨(Term.stack pieces).getD (.constant value (8 * size.toNat)), ?_, ?_⟩
  · simp only [notStruct, Bool.false_eq_true, if_false]
    exact emits.map fun pieces ↦ (Term.stack pieces).getD (.constant value (8 * size.toNat))
  · intro env inputs suits
    let whole := layParts (evaluate inputs) parts value
    have all : Stacked env whole 0 size.toNat pieces := by
      refine stacked env inputs whole suits (fun part member index covers ↦ ?_)
        fun index _ high apart ↦ byteAt_layParts_of_not_covers _ _ (by omega) apart
      have ends := fit.inside part member
      have below := covers.2
      exact byteAt_layParts_of_covers _ fit _ member (by omega) covers
    have value_eq : (assemble ty size parts value).evaluate inputs = ty.normalize whole := by
      rw [evaluate_eq_nodeValue inputs rfl]
      simp only [nodeValue, notStruct, Bool.false_eq_true, if_false, whole]
    have low : (ty.normalize whole).setWidth (8 * size.toNat) = whole.setWidth (8 * size.toNat) := by
      rw [sized]
      exact CType.setWidth_normalize notBool whole
    show _ = some (Meaning.word (assemble ty size parts value).bits
      (((assemble ty size parts value).evaluate inputs).setWidth _))
    rw [all.meaning_stack (by omega), value_eq, bits, low, Nat.sub_zero]
    refine congrArg (fun word ↦ some (Meaning.word _ word)) ?_
    rw [extractLsb'_eq_setWidth_iff]
    intro index _
    rw [Nat.zero_add]

end Nodes

/-- The encoding of every tree of encodable nodes agrees with evaluation. -/
theorem agrees_of_encodable {e : Expr} (all : Expr.Everywhere Expr.Encodable e) : Agrees e := by
  induction e with
  | input id ty value => exact agrees_input id all.here
  | const ty value => exact agrees_const all.here
  | unary op e ty value ih =>
    obtain ⟨here, below⟩ := (Expr.everywhere_unary ..).mp all
    exact agrees_unary (ih below) below here
  | binary op l r ty value ihl ihr =>
    obtain ⟨here, left, right⟩ := (Expr.everywhere_binary ..).mp all
    exact agrees_binary op (ihl left) (ihr right) left right here
  | compare op l r ty value ihl ihr =>
    obtain ⟨here, left, right⟩ := (Expr.everywhere_compare ..).mp all
    exact agrees_compare op (ihl left) (ihr right) left right here
  | pointer op l r size value ihl ihr =>
    obtain ⟨-, left, right⟩ := (Expr.everywhere_pointer ..).mp all
    exact agrees_pointer op size (ihl left) (ihr right) left right
  | slice e offset bytes value ih =>
    obtain ⟨here, below⟩ := (Expr.everywhere_slice ..).mp all
    exact agrees_slice (ih below) here
  | assemble ty size parts value ih =>
    obtain ⟨here, below⟩ := (Expr.everywhere_assemble ..).mp all
    exact agrees_assemble (fun part member ↦ ih part member (below part member)) here

end Concolic.Smt
