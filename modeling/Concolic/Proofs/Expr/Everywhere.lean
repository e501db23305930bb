import Concolic.Expr.Evaluate
import Concolic.Expr.Leaves

/-!
# Properties of all nodes of an expression

`Everywhere` says of every node what a condition says of one node, which may look at the children.
The value of a node is computed from the values of its children by `nodeValue`; evaluation and the
consistency check both compute it, from different values.
-/

namespace Concolic.Expr

def children : Expr → List Expr
  | .input .. | .const .. => []
  | .unary _ e _ _ | .slice e _ _ _ => [e]
  | .binary _ l r _ _ | .compare _ l r _ _ | .pointer _ l r _ _ => [l, r]
  | .assemble _ _ parts _ => parts.map Prod.snd

/-- Induction with a hypothesis for every child. -/
@[elab_as_elim]
theorem childInduction {motive : Expr → Prop} (e : Expr)
    (node : ∀ e, (∀ child ∈ e.children, motive child) → motive e) : motive e := by
  induction e with
  | input | const => exact node _ (by simp [children])
  | unary op e ty value ih | slice e offset bytes value ih =>
    exact node _ (by simpa [children] using ih)
  | binary op l r ty value ihl ihr | compare op l r ty value ihl ihr
  | pointer op l r size value ihl ihr =>
    exact node _ (by simpa [children] using ⟨ihl, ihr⟩)
  | assemble ty size parts value ih =>
    refine node _ fun child member ↦ ?_
    obtain ⟨part, present, rfl⟩ := List.mem_map.mp member
    exact ih part present

/-- The condition holds of every node of the tree. -/
inductive Everywhere (condition : Expr → Prop) : Expr → Prop where
  | node {e : Expr} (here : condition e)
      (below : ∀ child ∈ e.children, Everywhere condition child) : Everywhere condition e

variable {condition other : Expr → Prop}

theorem everywhere_iff (e : Expr) :
    Everywhere condition e ↔ condition e ∧ ∀ child ∈ e.children, Everywhere condition child :=
  ⟨fun ⟨here, below⟩ ↦ ⟨here, below⟩, fun ⟨here, below⟩ ↦ ⟨here, below⟩⟩

theorem Everywhere.here {e : Expr} (all : Everywhere condition e) : condition e :=
  ((everywhere_iff e).mp all).1

theorem Everywhere.child {e child : Expr} (all : Everywhere condition e)
    (member : child ∈ e.children) : Everywhere condition child :=
  ((everywhere_iff e).mp all).2 child member

theorem Everywhere.mono {e : Expr} (all : Everywhere condition e)
    (weaker : ∀ node, condition node → other node) : Everywhere other e := by
  induction all with
  | node here below ih => exact ⟨weaker _ here, ih⟩

/-- Two conditions agree on all nodes if they do on every node whose children meet the first. -/
theorem everywhere_congr_of_children {context : Expr → Prop} {e : Expr}
    (all : Everywhere context e)
    (step : ∀ node, context node → (∀ child ∈ node.children, condition child) →
      (condition node ↔ other node)) :
    Everywhere condition e ↔ Everywhere other e := by
  induction all with
  | @node e here below ih =>
    refine (everywhere_iff e).trans (Iff.trans ?_ (everywhere_iff e).symm)
    constructor
    · rintro ⟨own, each⟩
      exact ⟨(step e here fun child member ↦ (each child member).here).mp own,
        fun child member ↦ (ih child member).mp (each child member)⟩
    · rintro ⟨own, each⟩
      have lower (child : Expr) (member : child ∈ e.children) : Everywhere condition child :=
        (ih child member).mpr (each child member)
      exact ⟨(step e here fun child member ↦ (lower child member).here).mpr own, lower⟩

theorem everywhere_unary (op : UnaryOp) (e : Expr) (ty : CType) (value : Value) :
    Everywhere condition (.unary op e ty value) ↔
      condition (.unary op e ty value) ∧ Everywhere condition e := by
  rw [everywhere_iff]
  simp [children]

theorem everywhere_binary (op : BinaryOp) (l r : Expr) (ty : CType) (value : Value) :
    Everywhere condition (.binary op l r ty value) ↔
      condition (.binary op l r ty value) ∧ Everywhere condition l ∧ Everywhere condition r := by
  rw [everywhere_iff]
  simp [children]

theorem everywhere_compare (op : CompareOp) (l r : Expr) (ty : CType) (value : Value) :
    Everywhere condition (.compare op l r ty value) ↔
      condition (.compare op l r ty value) ∧ Everywhere condition l ∧ Everywhere condition r := by
  rw [everywhere_iff]
  simp [children]

theorem everywhere_pointer (op : PointerOp) (l r : Expr) (size : BitVec 64) (value : Value) :
    Everywhere condition (.pointer op l r size value) ↔
      condition (.pointer op l r size value) ∧ Everywhere condition l ∧
        Everywhere condition r := by
  rw [everywhere_iff]
  simp [children]

theorem everywhere_slice (e : Expr) (offset bytes : BitVec 32) (value : Value) :
    Everywhere condition (.slice e offset bytes value) ↔
      condition (.slice e offset bytes value) ∧ Everywhere condition e := by
  rw [everywhere_iff]
  simp [children]

theorem everywhere_assemble (ty : CType) (size : BitVec 32) (parts : List (BitVec 32 × Expr))
    (value : Value) :
    Everywhere condition (.assemble ty size parts value) ↔
      condition (.assemble ty size parts value) ∧
        ∀ part ∈ parts, Everywhere condition part.2 := by
  rw [everywhere_iff]
  refine and_congr_right fun _ ↦ ⟨fun each part member ↦ ?_, fun each child member ↦ ?_⟩
  · exact each part.2 (List.mem_map_of_mem member)
  · obtain ⟨part, present, rfl⟩ := List.mem_map.mp member
    exact each part present

theorem everywhere_leaf {e : Expr} (leaf : e.children = []) :
    Everywhere condition e ↔ condition e := by
  rw [everywhere_iff]
  simp [leaf]

/-! ## Values of nodes -/

/-- Parts laid over the bytes of a value, one after the other. -/
def layParts (child : Expr → Value) (parts : List (BitVec 32 × Expr)) (base : Value) : Value :=
  parts.foldl (fun base part ↦ overlay base part.1.toNat part.2.bits (child part.2)) base

/-- The value of a node whose children have the given values. -/
def nodeValue (child : Expr → Value) : Expr → Value
  | .input _ _ value => value
  | .const _ value => value
  | .unary op e ty _ => op.apply ty e.bits (child e)
  | .binary op l r ty _ => op.apply ty (child l) (child r)
  | .compare op l r ty _ => ty.normalize (flag (op.apply (max l.bits r.bits) (child l) (child r)))
  | .pointer op l r size _ => op.apply size (child l) (child r)
  | .slice e offset bytes _ => byteRange (child e) offset.toNat bytes.toNat
  | .assemble ty _ parts value =>
    if ty.isStruct then value else ty.normalize (layParts child parts value)

def isInput : Expr → Bool
  | .input .. => true
  | _ => false

theorem recomputed_eq_nodeValue (e : Expr) : e.recomputed = e.nodeValue Expr.value := by
  cases e <;> rfl

/-- Away from the inputs evaluation computes the value of a node from those of its children. -/
theorem evaluate_eq_nodeValue (inputs : List Value) {e : Expr} (inner : e.isInput = false) :
    e.evaluate inputs = e.nodeValue (evaluate inputs) := by
  cases e with
  | input => contradiction
  | assemble ty size parts value =>
    simp only [evaluate, nodeValue, evaluateParts_eq_foldl, layParts]
  | _ => rfl

theorem layParts_congr {first second : Expr → Value} {parts : List (BitVec 32 × Expr)}
    (agree : ∀ part ∈ parts, first part.2 = second part.2) (base : Value) :
    layParts first parts base = layParts second parts base := by
  induction parts generalizing base with
  | nil => rfl
  | cons part rest ih =>
    rw [List.forall_mem_cons] at agree
    simp only [layParts, List.foldl_cons, agree.1]
    exact ih agree.2 _

theorem nodeValue_congr {first second : Expr → Value} (e : Expr)
    (agree : ∀ child ∈ e.children, first child = second child) :
    e.nodeValue first = e.nodeValue second := by
  cases e with
  | input | const => rfl
  | unary | slice | binary | compare | pointer => simp_all [children, nodeValue]
  | assemble ty size parts value =>
    simp only [nodeValue]
    rw [layParts_congr fun part member ↦ agree part.2 (List.mem_map_of_mem member)]

/-! ## Leaves -/

/-- The leaf that a node is itself. -/
def ownLeaf : Expr → Option Leaf
  | .input id ty value => some (.input id ty value)
  | .const ty value => some (.const ty value)
  | _ => none

theorem mem_leaves_iff (leaf : Leaf) (e : Expr) :
    leaf ∈ e.leaves ↔ e.ownLeaf = some leaf ∨ ∃ child ∈ e.children, leaf ∈ child.leaves := by
  cases e with
  | assemble ty size parts value =>
    rw [leaves, leavesOfParts_eq_flatMap, List.mem_flatMap]
    constructor
    · rintro ⟨part, member, present⟩
      exact .inr ⟨part.2, List.mem_map_of_mem member, present⟩
    · rintro (own | ⟨child, member, present⟩)
      · cases own
      · obtain ⟨part, here, rfl⟩ := List.mem_map.mp member
        exact ⟨part, here, present⟩
  | _ => simp [leaves, children, ownLeaf, eq_comm]

theorem mem_leaves_of_child {e child : Expr} (member : child ∈ e.children) {leaf : Leaf}
    (present : leaf ∈ child.leaves) : leaf ∈ e.leaves :=
  (mem_leaves_iff leaf e).mpr (.inr ⟨child, member, present⟩)

/-- What holds of the leaves that are inputs holds of all nodes that are inputs. -/
theorem everywhere_input_iff {P : InputId → CType → Value → Prop} (e : Expr) :
    Everywhere (fun node ↦ ∀ id ty value, node = .input id ty value → P id ty value) e ↔
      ∀ id ty value, .input id ty value ∈ e.leaves → P id ty value := by
  induction e using childInduction with
  | node e ih =>
    rw [everywhere_iff]
    constructor
    · rintro ⟨here, below⟩ id ty value present
      rcases (mem_leaves_iff _ e).mp present with own | ⟨child, member, inner⟩
      · refine here id ty value ?_
        cases e <;> simp_all [ownLeaf]
      · exact (ih child member).mp (below child member) id ty value inner
    · intro all
      refine ⟨fun id ty value same ↦ all id ty value ?_, fun child member ↦ ?_⟩
      · subst same
        simp [leaves]
      · exact (ih child member).mpr fun id ty value inner ↦
          all id ty value (mem_leaves_of_child member inner)

theorem isConcrete_iff (e : Expr) :
    e.isConcrete = true ↔ ∀ id ty value, .input id ty value ∉ e.leaves := by
  induction e with
  | input id ty value => simp [isConcrete, leaves]
  | const => simp [isConcrete, leaves]
  | unary op e ty value ih | slice e offset bytes value ih => simpa [isConcrete, leaves] using ih
  | binary op l r ty value ihl ihr | compare op l r ty value ihl ihr
  | pointer op l r size value ihl ihr =>
    simp only [isConcrete, leaves, Bool.and_eq_true, ihl, ihr, List.mem_append, not_or]
    exact ⟨fun both id ty value ↦ ⟨both.1 id ty value, both.2 id ty value⟩,
      fun both ↦ ⟨fun id ty value ↦ (both id ty value).1, fun id ty value ↦ (both id ty value).2⟩⟩
  | assemble ty size parts value ih =>
    simp only [isConcrete, leaves, arePartsConcrete_eq_all, leavesOfParts_eq_flatMap,
      List.all_eq_true, List.mem_flatMap, not_exists, not_and]
    exact ⟨fun each id ty value part member ↦ (ih part member).mp (each part member) id ty value,
      fun each part member ↦ (ih part member).mpr fun id ty value ↦ each id ty value part member⟩

/-! ## Evaluation and consistency -/

theorem evaluate_congr {inputs others : List Value} (e : Expr)
    (agree : ∀ id ty value, .input id ty value ∈ e.leaves →
      evaluate inputs (.input id ty value) = evaluate others (.input id ty value)) :
    e.evaluate inputs = e.evaluate others := by
  induction e using childInduction with
  | node e ih =>
    by_cases inner : e.isInput
    · cases e with
      | input id ty value => exact agree id ty value (by simp [leaves])
      | _ => contradiction
    · rw [Bool.not_eq_true] at inner
      rw [evaluate_eq_nodeValue inputs inner, evaluate_eq_nodeValue others inner]
      exact nodeValue_congr e fun child member ↦ ih child member fun id ty value present ↦
        agree id ty value (mem_leaves_of_child member present)

/-- An expression without inputs has the same value on all inputs. -/
theorem evaluate_eq_of_isConcrete {e : Expr} (concrete : e.isConcrete = true)
    (inputs others : List Value) : e.evaluate inputs = e.evaluate others :=
  evaluate_congr e fun id ty value present ↦
    absurd present ((isConcrete_iff e).mp concrete id ty value)

theorem isConsistent_iff_everywhere (e : Expr) :
    e.isConsistent = true ↔ Everywhere (fun node ↦ node.recomputed = node.value) e := by
  induction e with
  | input id ty value => exact iff_of_true rfl ((everywhere_leaf rfl).mpr rfl)
  | const ty value => exact iff_of_true rfl ((everywhere_leaf rfl).mpr rfl)
  | unary op e ty value ih =>
    rw [everywhere_unary, isConsistent, Bool.and_eq_true, beq_iff_eq, ih, Expr.value]
  | slice e offset bytes value ih =>
    rw [everywhere_slice, isConsistent, Bool.and_eq_true, beq_iff_eq, ih, Expr.value]
  | binary op l r ty value ihl ihr =>
    rw [everywhere_binary, isConsistent, Bool.and_eq_true, Bool.and_eq_true, beq_iff_eq, ihl, ihr,
      Expr.value, and_assoc]
  | compare op l r ty value ihl ihr =>
    rw [everywhere_compare, isConsistent, Bool.and_eq_true, Bool.and_eq_true, beq_iff_eq, ihl, ihr,
      Expr.value, and_assoc]
  | pointer op l r size value ihl ihr =>
    rw [everywhere_pointer, isConsistent, Bool.and_eq_true, Bool.and_eq_true, beq_iff_eq, ihl, ihr,
      Expr.value, and_assoc]
  | assemble ty size parts value ih =>
    rw [everywhere_assemble, isConsistent, Bool.and_eq_true, beq_iff_eq, Expr.value,
      arePartsConsistent_eq_all, List.all_eq_true]
    exact and_congr_right fun _ ↦ forall₂_congr fun part member ↦ ih part member

/-- Where every node agrees with its children and every input with the vector, the whole tree
evaluates to its recorded value. -/
theorem evaluate_eq_value {inputs : List Value} {e : Expr}
    (consistent : Everywhere (fun node ↦ node.recomputed = node.value) e)
    (agree : ∀ id ty value, .input id ty value ∈ e.leaves →
      evaluate inputs (.input id ty value) = value) : e.evaluate inputs = e.value := by
  induction consistent with
  | @node e here below ih =>
    by_cases inner : e.isInput
    · cases e with
      | input id ty value => exact agree id ty value (by simp [leaves])
      | _ => contradiction
    · rw [Bool.not_eq_true] at inner
      rw [evaluate_eq_nodeValue inputs inner, ← here, recomputed_eq_nodeValue]
      exact nodeValue_congr e fun child member ↦ ih child member fun id ty value present ↦
        agree id ty value (mem_leaves_of_child member present)

end Concolic.Expr
