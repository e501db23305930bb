import Concolic.Expr.Text

/-!
# What the text of an expression shows

The text of an expression leaves out the values of all nodes but constants, the types of all nodes
but casts and assembled scalars, and the sizes of assembled scalars.  `bare` puts the same in place
of everything that is left out, and the text stays what it is.
-/

namespace Concolic

/-- The first of the types with the same name. -/
def CType.displayed : CType → CType
  | .ulonglong => .ulong
  | .longlong => .long
  | ty => ty

theorem CType.text_displayed (ty : CType) : ty.displayed.text = ty.text := by
  cases ty <;> rfl

theorem CType.isStruct_displayed (ty : CType) : ty.displayed.isStruct = ty.isStruct := by
  cases ty <;> rfl

theorem CType.displayed_eq_of_text_eq {a b : CType} (same : a.text = b.text) :
    a.displayed = b.displayed := by
  cases a <;> cases b <;> first | rfl | exact absurd same (by decide)

namespace Expr

mutual

/-- The expression with nothing but what its text shows.  A cast shows its target and not whether it
is signed. -/
def bare : Expr → Expr
  | .input id _ _ => .input id .int 0
  | .const _ value => .const .int value
  | .unary op e ty _ =>
    if op.isCast then .unary .unsignedCast (bare e) ty.displayed 0
    else .unary op (bare e) .int 0
  | .binary op l r _ _ => .binary op (bare l) (bare r) .int 0
  | .compare op l r _ _ => .compare op (bare l) (bare r) .int 0
  | .pointer op l r size _ => .pointer op (bare l) (bare r) size 0
  | .slice e offset bytes _ => .slice (bare e) offset bytes 0
  | .assemble ty size parts _ =>
    .assemble ty.displayed (if ty.isStruct then size else 0) (bareParts parts) 0

def bareParts : List (BitVec 32 × Expr) → List (BitVec 32 × Expr)
  | [] => []
  | (offset, e) :: rest => (offset, bare e) :: bareParts rest

end

theorem textOfParts_bareParts {parts : List (BitVec 32 × Expr)}
    (each : ∀ part ∈ parts, part.2.bare.text = part.2.text) :
    textOfParts (bareParts parts) = textOfParts parts := by
  induction parts with
  | nil => rfl
  | cons part rest ih =>
    obtain ⟨here, others⟩ := List.forall_mem_cons.mp each
    rw [bareParts, textOfParts, textOfParts, ih others, show textAt _ _ = _ from here]
    rfl

theorem textAt_bare (e : Expr) (limit : Nat) : e.bare.textAt limit = e.textAt limit := by
  induction e generalizing limit with
  | input | const => rfl
  | unary op e ty value ih =>
    cases op <;> simp only [bare, UnaryOp.isCast, Bool.false_eq_true, if_true, if_false, textAt, ih,
      CType.text_displayed]
  | binary op l r ty value ihl ihr | compare op l r ty value ihl ihr
  | pointer op l r size value ihl ihr =>
    simp only [bare, textAt, ihl, ihr]
  | slice e offset bytes value ih => simp only [bare, textAt, ih]
  | assemble ty size parts value ih =>
    have inner := textOfParts_bareParts fun part member ↦ ih part member topLevel
    simp only [bare, textAt, inner, CType.text_displayed, CType.isStruct_displayed]
    split <;> rfl

/-- Nothing that `bare` takes away shows in the text. -/
theorem text_bare (e : Expr) : e.bare.text = e.text :=
  textAt_bare e topLevel

end Expr

end Concolic
