import Concolic.Proofs.Smt.Declarations
import Concolic.Proofs.Smt.Reader

/-!
# Scripts for a solver

A script is read as a sequence of commands.  A solver accepts it when no constant is declared twice
and every assertion is a truth value over the constants declared before it.  The scripts of a
context that declares each constant once are accepted, with all declarations before the assertions.
-/

namespace Concolic.Smt

theorem Context.onlyInputs_sorts {context : Context}
    (inputs : ∀ entry ∈ context.declared, ∃ id, entry.1 = .input id) :
    Term.OnlyInputs context.sorts := by
  intro name declared
  rw [Context.sorts, Option.isSome_map, Context.width?_isSome_iff] at declared
  obtain ⟨width, present⟩ := declared
  exact inputs _ present

inductive Command where
  | setLogic (name : String)
  | declareConst (name : Symbol) (bits : Nat)
  | assertion (term : Term)
  | checkSat
deriving Repr

namespace Sexp

def bitVec? : Sexp → Option Nat
  | .list [.token "_", .token "BitVec", width] => index? width
  | _ => none

def command? : Sexp → Option Command
  | .list [.token "set-logic", .token name] => some (.setLogic name)
  | .list [.token "declare-const", .token name, sort] =>
    (symbol? name).bind fun name ↦ (bitVec? sort).map (.declareConst name)
  | .list [.token "assert", term] => (term? term).map .assertion
  | .list [.token "check-sat"] => some .checkSat
  | _ => none

end Sexp

namespace Script

/-- Reads the commands of a script. -/
def read (text : String) : Option (List Command) :=
  (Sexp.readAll text).bind (·.mapM Sexp.command?)

/-- The commands of a script that asserts terms in a context. -/
def commands (context : Context) (assertions : List Term) : List Command :=
  .setLogic "QF_BV" ::
    (context.declared.map fun entry ↦ .declareConst entry.1 entry.2) ++
      (assertions.map .assertion ++ [.checkSat])

/-- No constant is declared twice, and truth values over what is declared so far are asserted. -/
def Accepted (context : Context) : List Command → Prop
  | [] => True
  | .declareConst name bits :: rest =>
    context.declares name = false ∧ Accepted (context.declare name bits) rest
  | .assertion term :: rest => term.sort context.sorts = some .truth ∧ Accepted context rest
  | .setLogic _ :: rest | .checkSat :: rest => Accepted context rest

/-! ## Acceptance -/

theorem accepted_assertions {context : Context} {assertions : List Term}
    (sorted : ∀ term ∈ assertions, term.sort context.sorts = some .truth) :
    Accepted context (assertions.map .assertion ++ [.checkSat]) := by
  induction assertions with
  | nil => trivial
  | cons term rest ih =>
    obtain ⟨here, later⟩ := List.forall_mem_cons.mp sorted
    exact ⟨here, ih later⟩

/-- Constants that are all different can be declared on top of others. -/
theorem accepted_declarations {context : Context} {entries : List (Symbol × Nat)}
    {rest : List Command}
    (once : Context.DeclaresOnce ⟨context.declared ++ entries⟩)
    (accepted : Accepted ⟨context.declared ++ entries⟩ rest) :
    Accepted context ((entries.map fun entry ↦ .declareConst entry.1 entry.2) ++ rest) := by
  induction entries generalizing context with
  | nil =>
    rw [List.append_nil] at accepted
    exact accepted
  | cons entry entries ih =>
    have moved : context.declared ++ entry :: entries =
        (context.declare entry.1 entry.2).declared ++ entries := by
      rw [Context.declare, List.append_assoc]
      rfl
    refine ⟨?_, ih (moved ▸ once) (moved ▸ accepted)⟩
    rw [Bool.eq_false_iff]
    intro known
    obtain ⟨width, present⟩ := (context.declares_iff entry.1).mp known
    rw [Context.DeclaresOnce, List.map_append, List.nodup_append] at once
    exact once.2.2 entry.1 (List.mem_map.mpr ⟨_, present, rfl⟩) entry.1 (by simp) rfl

theorem accepted_commands {context : Context} {assertions : List Term}
    (once : context.DeclaresOnce)
    (sorted : ∀ term ∈ assertions, term.sort context.sorts = some .truth) :
    Accepted {} (commands context assertions) :=
  accepted_declarations once (accepted_assertions sorted)

/-! ## Reading the text of a script -/

open Lexeme Sexp

/-- Expressions on lines of their own. -/
theorem lex_lines {lines : List String} {es : List Sexp} (all : List.Forall₂ Writes lines es) :
    lex [] (String.join (lines.map (· ++ "\n"))).toList = lexemesOf es := by
  induction all with
  | nil => rfl
  | @cons line e lines es here later ih =>
    have newline : ("\n" : String).toList = ['\n'] := rfl
    rw [List.map_cons, String.join_cons, String.toList_append, String.toList_append, newline,
      List.append_assoc, here _ (by simp [EndsWord, isDelimiter]), lexemesOf, ← ih]
    simp [lex, ended, isDelimiter]

theorem readAll_lines {lines : List String} {es : List Sexp}
    (all : List.Forall₂ Writes lines es) :
    Sexp.readAll (String.join (lines.map (· ++ "\n"))) = some es := by
  have nested := nest_lexemesOf es [] [] []
  rw [List.append_nil, List.nil_append] at nested
  rw [Sexp.readAll, lex_lines all, nested]
  rfl

/-- The expression that a command stands for. -/
def sexp : Command → Sexp
  | .setLogic name => .list [.token "set-logic", .token name]
  | .declareConst name bits =>
    .list [.token "declare-const", .token name.text, Term.indexed "BitVec" [bits]]
  | .assertion term => .list [.token "assert", term.sexp]
  | .checkSat => .list [.token "check-sat"]

theorem declarationText_eq_application (name : Symbol) (bits : Nat) :
    Context.declarationText (name, bits) =
      Term.application "declare-const"
        [name.text, Term.application "_" ["BitVec", toString bits]] := by
  have opened : "(declare-const " = "(" ++ ("declare-const" ++ " ") := by decide +kernel
  have sort : " (_ BitVec " = " " ++ ("(" ++ ("_" ++ (" " ++ ("BitVec" ++ " ")))) := by
    decide +kernel
  have closed : "))" = ")" ++ ")" := by decide +kernel
  unfold Context.declarationText Term.application
  dsimp only
  rw [opened, sort, closed]
  simp only [String.intercalate_cons_cons, String.intercalate_singleton, String.append_assoc]

theorem assertionText_eq_application (term : Term) :
    "(assert " ++ term.text ++ ")" = Term.application "assert" [term.text] := by
  rw [← String.toList_inj]
  simp [Term.application, String.toList_append]

theorem writes_declaration (id : InputId) (bits : Nat) :
    Writes (Context.declarationText (.input id, bits)) (sexp (.declareConst (.input id) bits)) := by
  have name : Writes (Symbol.input id).text (.token (Symbol.input id).text) :=
    Term.writes_numbered "x" (by decide) id.toNat
  have head : Writes "declare-const" (.token "declare-const") :=
    Term.writes_name (by simp) (by decide)
  have sort : Writes "BitVec" (.token "BitVec") := Term.writes_name (by simp) (by decide)
  rw [declarationText_eq_application]
  exact writes_application head (.cons name (.cons (Term.writes_indexed sort [bits]) .nil))

theorem command?_declaration (id : InputId) (bits : Nat) :
    command? (sexp (.declareConst (.input id) bits)) = some (.declareConst (.input id) bits) := by
  have width : bitVec? (Term.indexed "BitVec" [bits]) = some bits :=
    Term.natural?_toString bits
  have chars : (Symbol.input id).text.toList = 'x' :: (toString id.toNat).toList := by
    simp [Symbol.text, Term.toString_string]
  have name : symbol? (Symbol.input id).text = some (.input id) := by
    rw [symbol?, chars]
    simp only [Term.word?_toString]
    rfl
  simp only [sexp, command?, name, width]
  rfl

/-- The line that a command is printed as. -/
def line : Command → String
  | .setLogic name => Term.application "set-logic" [name]
  | .declareConst name bits => Context.declarationText (name, bits)
  | .assertion term => "(assert " ++ term.text ++ ")"
  | .checkSat => "(check-sat)"

theorem script_eq_lines (context : Context) (assertions : List Term) :
    context.script assertions =
      String.join (((commands context assertions).map line).map (· ++ "\n")) := by
  have logic : "(set-logic QF_BV)" = line (.setLogic "QF_BV") := by decide +kernel
  rw [Context.script, Context.declarationTexts, logic]
  simp only [commands, List.map_append, List.map_cons, List.map_map, List.map_nil,
    List.cons_append, List.nil_append, List.append_assoc]
  rfl

/-- Each line of a script over inputs stands for its command. -/
theorem line_reads {context : Context} {assertions : List Term}
    (inputs : ∀ entry ∈ context.declared, ∃ id, entry.1 = .input id)
    (sorted : ∀ term ∈ assertions, (term.sort context.sorts).isSome) :
    ∀ command ∈ commands context assertions,
      Writes (line command) (sexp command) ∧ command? (sexp command) = some command := by
  have onlyInputs := Context.onlyInputs_sorts inputs
  have name {name : String} (nonempty : name.toList ≠ [])
      (plain : name.toList.all fun c ↦ !isDelimiter c) : Writes name (.token name) :=
    Term.writes_name nonempty plain
  intro command member
  simp only [commands, List.cons_append, List.mem_cons, List.mem_append, List.mem_map,
    List.not_mem_nil, or_false] at member
  rcases member with rfl | ⟨⟨first, bits⟩, declared, rfl⟩ | ⟨term, asserted, rfl⟩ | rfl
  · exact ⟨writes_application (name (by simp) (by decide)) (.cons (name (by simp) (by decide)) .nil),
      rfl⟩
  · obtain ⟨id, rfl⟩ := inputs _ declared
    exact ⟨writes_declaration id bits, command?_declaration id bits⟩
  · have here := sorted term asserted
    constructor
    · rw [line, assertionText_eq_application]
      exact writes_application (name (by simp) (by decide))
        (.cons (Term.writes_text onlyInputs term here) .nil)
    · rw [sexp, command?, Term.term?_sexp onlyInputs term here]
      rfl
  · have text : line .checkSat = Term.application "check-sat" [] := by decide +kernel
    refine ⟨?_, rfl⟩
    rw [text]
    exact writes_application (name (by simp) (by decide)) .nil

theorem mapM_command? {commands : List Command}
    (each : ∀ command ∈ commands, command? (sexp command) = some command) :
    (commands.map sexp).mapM command? = some commands := by
  induction commands with
  | nil => rfl
  | cons command rest ih =>
    obtain ⟨here, later⟩ := List.forall_mem_cons.mp each
    rw [List.map_cons, List.mapM_cons, here, ih later]
    rfl

/-- What is printed as a script is read as its commands. -/
theorem read_script {context : Context} {assertions : List Term}
    (inputs : ∀ entry ∈ context.declared, ∃ id, entry.1 = .input id)
    (sorted : ∀ term ∈ assertions, (term.sort context.sorts).isSome) :
    read (context.script assertions) = some (commands context assertions) := by
  have each := line_reads inputs sorted
  have written : List.Forall₂ Writes ((commands context assertions).map line)
      ((commands context assertions).map sexp) := by
    rw [List.forall₂_map_left_iff, List.forall₂_map_right_iff, List.forall₂_same]
    exact fun command member ↦ (each command member).1
  rw [read, script_eq_lines, readAll_lines written]
  exact mapM_command? fun command member ↦ (each command member).2

end Script

end Concolic.Smt
