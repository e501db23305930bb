import Concolic.Proofs.Expr.Dependence
import Concolic.Proofs.Smt.References
import Mathlib.Data.Finset.Card

/-!
# Requests to a solver

A solver is asked for expressions, constraints, paths and memories in one context.  Over any number
of requests every input and every cell has one constant, which is declared where it is first
referred to.
-/

namespace Concolic.Smt

def Symbol.input? : Symbol → Option InputId
  | .input id => some id
  | _ => none

/-- What a solver is asked for. -/
inductive Request where
  | expression (e : Expr)
  | condition (constraint : Constraint)
  | conditions (path : Path)
  | equations (memory : Memory)

namespace Request

def encode : Request → Encoder Term
  | .expression e => encodeExpr e
  | .condition constraint => encodeConstraint constraint
  | .conditions path => encodePath path
  | .equations memory => encodeMemory memory

/-- The constants referred to, in order: those of the leaves of an expression from left to right,
and before them that of the cell which the expression is bound to.  The entries of a memory ascend
with their addresses. -/
def references : Request → List (Symbol × Nat)
  | .expression e => e.references
  | .condition constraint => constraint.condition.references
  | .conditions path => path.constraints.flatMap fun constraint ↦ constraint.condition.references
  | .equations memory =>
    memory.cells.entries.flatMap fun cell ↦ (.cell cell.1, cell.2.bits) :: cell.2.references

/-- The expressions that terms are asked for. -/
def expressions : Request → List Expr
  | .expression e => [e]
  | .condition constraint => [constraint.condition]
  | .conditions path => path.constraints.map Constraint.condition
  | .equations memory => memory.cells.entries.map Prod.snd

def inputs (request : Request) : List InputId :=
  request.expressions.flatMap Expr.inputs

end Request

open Encoder

/-! ## What a request refers to -/

theorem mentions_encodeConstraint (constraint : Constraint) :
    (encodeConstraint constraint).Mentions Term.symbols constraint.condition.references := by
  refine (mentions_encoding constraint.condition).condition.map fun condition name ↦ ?_
  split
  · rfl
  · rw [Term.symbols]

theorem mentions_encodeCell (address : Address) (e : Expr) :
    (encodeCell address e).Mentions Term.symbols ((.cell address, e.bits) :: e.references) := by
  refine (mentions_constant (.cell address) e.bits).map₂ (mentions_encoding e).word
    fun cell term name ↦ ?_
  rw [Term.symbols, List.mem_append]

theorem mentions_all {encoder : Encoder (List Term)} {references : List (Symbol × Nat)}
    (mentions : encoder.Mentions Term.symbolsOf references) :
    (do return Term.all (← encoder) : Encoder Term).Mentions Term.symbols references :=
  mentions.map fun terms name ↦ by rw [Term.symbols_all, Term.symbolsOf_eq_flatMap]

theorem mentions_encode (request : Request) :
    request.encode.Mentions Term.symbols request.references := by
  cases request with
  | expression e => exact (mentions_encoding e).word
  | condition constraint => exact mentions_encodeConstraint constraint
  | conditions path =>
    exact mentions_all (mentions_mapM fun constraint _ ↦ mentions_encodeConstraint constraint)
  | equations memory =>
    exact mentions_all (mentions_mapM fun cell _ ↦ mentions_encodeCell cell.1 cell.2)

theorem isNumbered_of_mem_references {e : Expr} {name : Symbol} {width : Nat}
    (member : (name, width) ∈ e.references) : name.IsNumbered := by
  obtain ⟨id, -, -, -, rfl, -⟩ := Expr.mem_references_iff.mp member
  trivial

namespace Request

theorem isNumbered_of_mem {request : Request} {name : Symbol} {width : Nat}
    (member : (name, width) ∈ request.references) : name.IsNumbered := by
  cases request with
  | expression e => exact isNumbered_of_mem_references member
  | condition constraint => exact isNumbered_of_mem_references member
  | conditions path =>
    obtain ⟨constraint, -, here⟩ := List.mem_flatMap.mp member
    exact isNumbered_of_mem_references here
  | equations memory =>
    obtain ⟨cell, -, here⟩ := List.mem_flatMap.mp member
    rcases List.mem_cons.mp here with same | later
    · cases same
      trivial
    · exact isNumbered_of_mem_references later

/-- The inputs referred to are those of the expressions. -/
theorem input_mem_references_iff (request : Request) (id : InputId) (width : Nat) :
    (.input id, width) ∈ request.references ↔
      ∃ e ∈ request.expressions, (.input id, width) ∈ e.references := by
  cases request with
  | expression | condition | conditions => simp [references, expressions]
  | equations memory =>
    simp only [references, expressions, List.mem_flatMap, List.mem_map]
    constructor
    · rintro ⟨cell, present, here⟩
      rcases List.mem_cons.mp here with same | later
      · cases same
      · exact ⟨cell.2, ⟨cell, present, rfl⟩, later⟩
    · rintro ⟨-, ⟨cell, present, rfl⟩, member⟩
      exact ⟨cell, present, List.mem_cons_of_mem _ member⟩

theorem mem_inputs_iff (request : Request) (id : InputId) :
    id ∈ request.inputs ↔ ∃ width, (.input id, width) ∈ request.references := by
  simp only [inputs, List.mem_flatMap, Expr.mem_inputs_iff, input_mem_references_iff,
    Expr.mem_references_iff, Symbol.input.injEq]
  constructor
  · rintro ⟨e, asked, ty, value, leaf⟩
    exact ⟨ty.bits, e, asked, id, ty, value, leaf, rfl, rfl⟩
  · rintro ⟨width, e, asked, other, ty, value, leaf, rfl, -⟩
    exact ⟨e, asked, ty, value, leaf⟩

end Request

/-! ## Counting inputs -/

namespace Context

variable {context : Context}

theorem inputCount_eq_length (context : Context) :
    context.inputCount = ((context.declared.map Prod.fst).filterMap Symbol.input?).length := by
  rw [inputCount, List.filterMap_map, List.length_filterMap_eq_countP]
  congr 1
  funext entry
  rcases entry with ⟨_ | _ | _, _⟩ <;> rfl

/-- With one constant for each input, the constants of inputs count the inputs. -/
theorem DeclaresOnce.inputCount_eq (once : context.DeclaresOnce) {ids : List InputId}
    (all : ∀ id, id ∈ ids ↔ context.declares (.input id) = true) :
    context.inputCount = ids.toFinset.card := by
  have distinct : ((context.declared.map Prod.fst).filterMap Symbol.input?).Nodup := by
    refine List.Nodup.filterMap (fun first second id left right ↦ ?_) once
    cases first <;> cases second <;> cases left <;> cases right
    rfl
  have same : ((context.declared.map Prod.fst).filterMap Symbol.input?).toFinset =
      ids.toFinset := by
    ext id
    rw [List.mem_toFinset, List.mem_toFinset, all, declares_iff, List.mem_filterMap]
    constructor
    · rintro ⟨name, member, own⟩
      obtain ⟨⟨_ | _ | _, width⟩, present, rfl⟩ := List.mem_map.mp member <;> cases own
      exact ⟨width, present⟩
    · rintro ⟨width, present⟩
      exact ⟨_, List.mem_map_of_mem present, rfl⟩
  rw [inputCount_eq_length, ← same, List.toFinset_card_of_nodup distinct]

/-- Constants of inputs and cells that are declared once have different names. -/
theorem DeclaresOnce.text_nodup (once : context.DeclaresOnce)
    (numbered : ∀ entry ∈ context.declared, entry.1.IsNumbered) :
    (context.declared.map fun entry ↦ entry.1.text).Nodup := by
  have names : ∀ name ∈ context.declared.map Prod.fst, name.IsNumbered := by
    intro name member
    obtain ⟨entry, present, rfl⟩ := List.mem_map.mp member
    exact numbered entry present
  have apart := List.Nodup.map_on (f := Symbol.text) (fun first left second right ↦
    Symbol.text_inj (names first left) (names second right)) once
  rwa [List.map_map] at apart

end Context

/-! ## Runs of requests -/

variable {earlier : List Request} {request : Request} {terms : List Term} {term : Term}
  {context declared : Context}

/-- What is declared in a context that started fresh has been referred to. -/
theorem declares_fresh_iff {references : List (Symbol × Nat)} {name : Symbol} :
    (Context.refer {} references).declares name = true ↔ ∃ width, (name, width) ∈ references := by
  rw [Context.declares_refer_iff]
  exact or_iff_right (by simp [Context.declares])

theorem declaresOnce_fresh (references : List (Symbol × Nat)) :
    (Context.refer {} references).DeclaresOnce := by
  have none : Context.DeclaresOnce {} := List.Pairwise.nil
  exact Context.declaresOnce_refer none references

theorem text_nodup_fresh (requests : List Request) :
    ((Context.refer {} (requests.flatMap Request.references)).declared.map
      fun entry ↦ entry.1.text).Nodup := by
  refine (declaresOnce_fresh _).text_nodup fun entry present ↦ ?_
  obtain ⟨width, member⟩ := declares_fresh_iff.mp ((Context.declares_iff ..).mpr ⟨_, present⟩)
  obtain ⟨request, -, here⟩ := List.mem_flatMap.mp member
  exact request.isNumbered_of_mem here

theorem inputCount_fresh (requests : List Request) :
    (Context.refer {} (requests.flatMap Request.references)).inputCount =
      (requests.flatMap Request.inputs).toFinset.card := by
  refine (declaresOnce_fresh _).inputCount_eq fun id ↦ ?_
  simp only [declares_fresh_iff, List.mem_flatMap, Request.mem_inputs_iff]
  constructor
  · rintro ⟨request, asked, width, member⟩
    exact ⟨width, request, asked, member⟩
  · rintro ⟨width, request, asked, member⟩
    exact ⟨request, asked, width, member⟩

/-- A request adds the constants that it refers to and that are missing, at their first reference
and in this order.  After any number of requests no two declarations have the same name, the
constants that a term mentions are those of its request and declared, and there is one constant for
each input asked for. -/
theorem run_declares_once
    (before : (earlier.mapM Request.encode).runIn {} = (.ok terms, context))
    (served : request.encode.runIn context = (.ok term, declared)) :
    declared.declared = context.declared ++ context.missing request.references ∧
      (declared.declared.map fun entry ↦ entry.1.text).Nodup ∧
      (∀ name ∈ term.symbols, declared.declares name = true) ∧
      (∀ name, name ∈ term.symbols ↔ ∃ width, (name, width) ∈ request.references) ∧
      (∀ first second : Symbol, first.IsNumbered → second.IsNumbered →
        first.text = second.text → first = second) ∧
      declared.inputCount = ((earlier ++ [request]).flatMap Request.inputs).toFinset.card := by
  obtain ⟨rfl, -⟩ := mentions_mapM (fun request _ ↦ mentions_encode request) {} terms context before
  obtain ⟨rfl, mentioned⟩ := mentions_encode request _ term declared served
  have whole : (Context.refer {} (earlier.flatMap Request.references)).refer request.references =
      Context.refer {} ((earlier ++ [request]).flatMap Request.references) := by
    rw [List.flatMap_append, List.flatMap_singleton, Context.refer_append]
  refine ⟨Context.declared_refer _ _, ?_, fun name member ↦ ?_, mentioned,
    fun _ _ ↦ Symbol.text_inj, ?_⟩
  · rw [whole]
    exact text_nodup_fresh _
  · exact Context.declares_refer_iff.mpr (.inr ((mentioned name).mp member))
  · rw [whole]
    exact inputCount_fresh _

/-- A sum and a branch on one of its operands. -/
def sumRequests : List Request :=
  [.expression (.binary .add (.input 1 .int 5) (.input 0 .int 7) .int 12),
    .condition ⟨0, .compare .sgt (.input 1 .int 5) (.const .int 10) .int 0, false⟩]

/-- Two cells, one of them bound to the other operand. -/
def boundRequest : Request :=
  .equations ⟨.ofList [(4096, .input 2 .char 3), (16, .input 0 .int 7)]⟩

theorem run_declares_once_bound :
    (sumRequests.mapM Request.encode).runIn {} =
        (.ok [.binary .add (.symbol (.input 1)) (.symbol (.input 0)),
          .negation (.rel .slt (.constant 10 32) (.symbol (.input 1)))],
        ⟨[(.input 1, 32), (.input 0, 32)]⟩) ∧
      boundRequest.encode.runIn ⟨[(.input 1, 32), (.input 0, 32)]⟩ =
        (.ok (.conjunction [.rel .eq (.symbol (.cell 16)) (.symbol (.input 0)),
            .rel .eq (.symbol (.cell 4096)) (.symbol (.input 2))]),
          ⟨[(.input 1, 32), (.input 0, 32), (.cell 16, 32), (.cell 4096, 8), (.input 2, 8)]⟩) ∧
      Context.missing ⟨[(.input 1, 32), (.input 0, 32)]⟩ boundRequest.references =
        [(.cell 16, 32), (.cell 4096, 8), (.input 2, 8)] ∧
      ((sumRequests ++ [boundRequest]).flatMap Request.inputs).toFinset.card = 3 := by
  have before : (sumRequests.mapM Request.encode).runIn {} = (.ok _, _) := rfl
  have served : boundRequest.encode.runIn ⟨[(.input 1, 32), (.input 0, 32)]⟩ = (.ok _, _) := rfl
  obtain ⟨appended, -, -, -, -, counted⟩ := run_declares_once before served
  exact ⟨before, served, (congrArg (List.drop 2) appended).symm, counted.symm⟩

end Concolic.Smt
