import Concolic.Smt.Term

/-!
# Declarations

The constants declared so far, in order, each with its width.  `reference` declares the constant
of an input or a cell when it is first referred to and never again, whatever width is asked for
later; `declare` always adds a declaration.  A script asserts terms below all declarations.
-/

namespace Concolic.Smt

structure Context where
  declared : List (Symbol × Nat) := []
deriving DecidableEq, Repr

namespace Context

def declares (context : Context) (symbol : Symbol) : Bool :=
  context.declared.any fun entry ↦ entry.1 == symbol

def declare (context : Context) (symbol : Symbol) (bits : Nat) : Context :=
  ⟨context.declared ++ [(symbol, bits)]⟩

def reference (context : Context) (symbol : Symbol) (bits : Nat) : Context :=
  if context.declares symbol then context else context.declare symbol bits

/-- How many inputs have a constant. -/
def inputCount (context : Context) : Nat :=
  context.declared.countP fun entry ↦
    match entry.1 with
    | .input _ => true
    | _ => false

def declarationText (entry : Symbol × Nat) : String :=
  "(declare-const " ++ entry.1.text ++ " (_ BitVec " ++ toString entry.2 ++ "))"

def declarationTexts (context : Context) : List String :=
  context.declared.map declarationText

def script (context : Context) (assertions : List Term) : String :=
  let assertionTexts := assertions.map fun term ↦ "(assert " ++ term.text ++ ")"
  String.join <|
    (["(set-logic QF_BV)"] ++ context.declarationTexts ++ assertionTexts ++ ["(check-sat)"]).map
      (· ++ "\n")

theorem declares_declare (context : Context) (symbol : Symbol) (bits : Nat) :
    (context.declare symbol bits).declares symbol = true := by
  simp [declare, declares]

theorem declares_reference (context : Context) (symbol : Symbol) (bits : Nat) :
    (context.reference symbol bits).declares symbol = true := by
  unfold reference
  split
  · assumption
  · exact declares_declare context symbol bits

theorem reference_of_declares (context : Context) (symbol : Symbol) (bits : Nat)
    (known : context.declares symbol = true) : context.reference symbol bits = context :=
  if_pos known

end Context

end Concolic.Smt
