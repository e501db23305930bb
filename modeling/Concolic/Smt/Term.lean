import Concolic.Word

/-!
# Solver terms

Terms of the quantifier-free theory of fixed-size bit-vectors in the notation of SMT-LIB 2.
Bit-vector terms and truth values share one type; constants stand for inputs of a program, for
cells of its memory, or for anything that has a name.
-/

namespace Concolic.Smt

inductive Symbol where
  | input (id : InputId)
  | cell (address : Address)
  | named (name : String)
deriving DecidableEq, Repr

/-- Operators on two bit-vectors of one width. -/
inductive BitOp where
  | add
  | sub
  | mul
  | udiv
  | sdiv
  | urem
  | srem
  | shl
  | lshr
  | ashr
  | and
  | or
  | xor
deriving DecidableEq, Repr

/-- Relations between two bit-vectors of one width. -/
inductive BitRel where
  | eq
  | ult
  | ule
  | slt
  | sle
deriving DecidableEq, Repr

inductive Term where
  | symbol (name : Symbol)
  | numeral (value : Value) (bits : Nat)
  | neg (term : Term)
  | not (term : Term)
  | binary (op : BitOp) (lhs rhs : Term)
  | rel (op : BitRel) (lhs rhs : Term)
  | negation (term : Term)
  | truth
  | conjunction (terms : List Term)
  | ite (cond thenTerm elseTerm : Term)
  | zeroExtend (bits : Nat) (term : Term)
  | signExtend (bits : Nat) (term : Term)
  | extract (high low : Nat) (term : Term)
  | concat (high low : Term)
deriving Repr

def Symbol.text : Symbol → String
  | .input id => s!"x{id.toNat}"
  | .cell address => "m" ++ hexDigits address
  | .named name => name

def BitOp.text : BitOp → String
  | .add => "bvadd"
  | .sub => "bvsub"
  | .mul => "bvmul"
  | .udiv => "bvudiv"
  | .sdiv => "bvsdiv"
  | .urem => "bvurem"
  | .srem => "bvsrem"
  | .shl => "bvshl"
  | .lshr => "bvlshr"
  | .ashr => "bvashr"
  | .and => "bvand"
  | .or => "bvor"
  | .xor => "bvxor"

def BitRel.text : BitRel → String
  | .eq => "="
  | .ult => "bvult"
  | .ule => "bvule"
  | .slt => "bvslt"
  | .sle => "bvsle"

namespace Term

instance : Inhabited Term := ⟨.truth⟩

/-- The low `bits` bits of a word. -/
def constant (value : Value) (bits : Nat) : Term :=
  .numeral (Concolic.zeroExtend bits value) bits

/-- No term at all is true, and one term stands for itself. -/
def all : List Term → Term
  | [] => .truth
  | [term] => term
  | terms => .conjunction terms

def application (head : String) (arguments : List String) : String :=
  "(" ++ " ".intercalate (head :: arguments) ++ ")"

mutual

def text : Term → String
  | .symbol name => name.text
  | .numeral value bits => s!"(_ bv{value.toNat} {bits})"
  | .neg term => application "bvneg" [text term]
  | .not term => application "bvnot" [text term]
  | .binary op lhs rhs => application op.text [text lhs, text rhs]
  | .rel op lhs rhs => application op.text [text lhs, text rhs]
  | .negation term => application "not" [text term]
  | .truth => "true"
  | .conjunction terms => application "and" (texts terms)
  | .ite cond thenTerm elseTerm =>
    application "ite" [text cond, text thenTerm, text elseTerm]
  | .zeroExtend bits term => application s!"(_ zero_extend {bits})" [text term]
  | .signExtend bits term => application s!"(_ sign_extend {bits})" [text term]
  | .extract high low term => application s!"(_ extract {high} {low})" [text term]
  | .concat high low => application "concat" [text high, text low]

def texts : List Term → List String
  | [] => []
  | term :: rest => text term :: texts rest

end

instance : ToString Term := ⟨text⟩

theorem texts_eq_map (terms : List Term) : texts terms = terms.map text := by
  induction terms with
  | nil => rfl
  | cons term rest ih => simp [texts, ih]

end Term

end Concolic.Smt
