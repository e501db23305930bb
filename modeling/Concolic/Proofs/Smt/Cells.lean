import Concolic.Proofs.Memory.Frame
import Concolic.Proofs.Smt.Built

/-!
# Constants of cells

A memory is given to a solver as equations between the constants of its cells and the expressions
bound there.  A context declares the constant of a cell for the first equation on it, at the width
of that equation, and never again.  As memory changes, a later equation on the cell is well sorted
in the shared context exactly where its expression has the width of the first.
-/

namespace Concolic

namespace MemoryAction

/-- The bindings that are given to the solver. -/
def equated (memory : Memory) : MemoryAction → List (Address × Expr)
  | .equate => memory.cells.entries
  | .equateAt address => (memory.get? address).toList.map fun e ↦ (address, e)
  | _ => []

end MemoryAction

namespace Smt

open Concolic.Expr

/-- The term that equates the constant of a cell with an expression. -/
structure Equation where
  address : Address
  e : Expr
  term : Term

def encodeEquation (cell : Address × Expr) : Encoder Equation :=
  return ⟨cell.1, cell.2, ← encodeCell cell.1 cell.2⟩

/-- A memory is encoded as the conjunction of its equations. -/
theorem encodeMemory_eq (memory : Memory) :
    encodeMemory memory = do
      return Term.all ((← memory.cells.entries.mapM encodeEquation).map Equation.term) := by
  have each (cells : List (Address × Expr)) :
      cells.mapM (fun cell ↦ encodeCell cell.1 cell.2) =
        (do return (← cells.mapM encodeEquation).map Equation.term) := by
    induction cells with
    | nil => rfl
    | cons cell rest ih => simp only [List.mapM_cons, encodeEquation, ih, bind_assoc, pure_bind,
        List.map_cons]
  simp only [encodeMemory, each, bind_assoc, pure_bind]

/-- A memory, the context that its equations share, and the equations so far. -/
structure Exchange where
  memory : Memory := .empty
  context : Context := {}
  equations : List Equation := []

namespace Exchange

def step (exchange : Exchange) (action : MemoryAction) : Except Fault Exchange :=
  match ((action.equated exchange.memory).mapM encodeEquation).runIn exchange.context with
  | (.error fault, _) => .error fault
  | (.ok new, context) => do
    let memory ← action.apply exchange.memory
    return { memory, context, equations := exchange.equations ++ new }

def run (exchange : Exchange) : List MemoryAction → Except Fault Exchange
  | [] => .ok exchange
  | action :: rest => do
    let next ← exchange.step action
    next.run rest

/-- The condition holds of all bindings that are given to the solver. -/
def AllEquated (condition : Expr → Prop) (exchange : Exchange) : List MemoryAction → Prop
  | [] => True
  | action :: rest =>
    (∀ cell ∈ action.equated exchange.memory, condition cell.2) ∧
      ∀ next, exchange.step action = .ok next → next.AllEquated condition rest

end Exchange

/-- A tree of scalars whose bytes fit, over inputs of the given types. -/
structure ScalarOver (types : InputId → CType) (e : Expr) : Prop where
  nodes : Everywhere ByteEncodable e
  typed : ∀ id ty value, .input id ty value ∈ e.leaves → ty = types id

variable {types : InputId → CType} {context declared : Context} {equations : List Equation}
  {address : Address} {e : Expr} {exchange final : Exchange}

theorem ScalarOver.sorted (scalar : ScalarOver types e) :
    (encodeExpr e).Sorted e.leaves (.word e.bits) := by
  refine sorted_of_asBytes (fun id ty other value second first later ↦ ?_)
    (denotes_word scalar.nodes) fun _ ↦ rfl
  rw [scalar.typed id ty value first, scalar.typed id other second later]

theorem scalarOver_input {id : InputId} {value : Value}
    (encodable : ByteEncodable (.input id (types id) value)) :
    ScalarOver types (.input id (types id) value) where
  nodes := (everywhere_leaf rfl).mpr encodable
  typed other ty held member := by
    simp only [Expr.leaves, List.mem_singleton, Leaf.input.injEq] at member
    obtain ⟨rfl, rfl, -⟩ := member
    rfl

/-- An equation between the constant of its cell and a term of the width of its expression, whose
inputs are declared. -/
structure Equation.Stated (types : InputId → CType) (context : Context) (equation : Equation) :
    Prop where
  inputs : ∀ id ty value, .input id ty value ∈ equation.e.leaves →
    ty = types id ∧ ∃ width, (.input id, width) ∈ context.declared
  term : ∃ term, equation.term = .rel .eq (.symbol (.cell equation.address)) term ∧
    ∀ context : Context, context.Admits equation.e.leaves →
      term.sort (context.withLeaves equation.e.leaves).sorts = some (.word equation.e.bits)

/-- The declarations of a context are those of the equations: every input has the width of its
type, and every cell that of the first equation on it. -/
structure Accounts (types : InputId → CType) (context : Context) (equations : List Equation) :
    Prop where
  inputs : ∀ id width, (.input id, width) ∈ context.declared → width = (types id).bits
  stated : ∀ equation ∈ equations, equation.Stated types context
  cells : ∀ address, context.width? (.cell address) =
    (equations.find? (·.address == address)).map (·.e.bits)

theorem accounts_nil (types : InputId → CType) : Accounts types {} [] where
  inputs _ _ present := by simp at present
  stated _ member := by simp at member
  cells _ := rfl

theorem Equation.Stated.mono {equation : Equation} (stated : equation.Stated types context)
    (kept : ∀ entry ∈ context.declared, entry ∈ declared.declared) :
    equation.Stated types declared where
  inputs id ty value member := by
    obtain ⟨same, width, present⟩ := stated.inputs id ty value member
    exact ⟨same, width, kept _ present⟩
  term := stated.term

/-! ## Declarations of one equation -/

theorem width?_cell_withLeaves (context : Context) (leaves : List Leaf) (address : Address) :
    (context.withLeaves leaves).width? (.cell address) = context.width? (.cell address) := by
  induction leaves generalizing context with
  | nil => rfl
  | cons leaf rest ih =>
    cases leaf with
    | const ty value => exact ih context
    | input id ty value =>
      rw [Context.withLeaves_input, ih, Context.width?_reference, if_neg (by simp)]

theorem runIn_encodeEquation {term : Term} (emits : (encodeExpr e).Emits term e.leaves)
    (address : Address) (context : Context) :
    (encodeEquation (address, e)).runIn context =
      (.ok ⟨address, e, .rel .eq (.symbol (.cell address)) term⟩,
        (context.reference (.cell address) e.bits).withLeaves e.leaves) := by
  have constant : (Encoder.constant (.cell address) e.bits).runIn context =
      (.ok (.symbol (.cell address)), context.reference (.cell address) e.bits) := rfl
  have word : (encodeExpr e).runIn (context.reference (.cell address) e.bits) =
      (.ok term, (context.reference (.cell address) e.bits).withLeaves e.leaves) := emits _
  simp only [encodeEquation, encodeCell, Encoder.runIn_bind, constant, word]
  rfl

/-- An equation on a scalar keeps the account. -/
theorem Accounts.equation (accounts : Accounts types context equations)
    (scalar : ScalarOver types e) (address : Address) :
    ∃ equation declared, (encodeEquation (address, e)).runIn context = (.ok equation, declared) ∧
      Accounts types declared (equations ++ [equation]) := by
  obtain ⟨term, emits, -, sorted⟩ := scalar.sorted
  let cell := context.reference (.cell address) e.bits
  have kept (entry : Symbol × Nat) (old : entry ∈ context.declared) :
      entry ∈ (cell.withLeaves e.leaves).declared :=
    Context.mem_declared_withLeaves ((Context.mem_declared_reference ..).mpr (.inl old))
  refine ⟨_, _, runIn_encodeEquation emits address context, ?_, ?_, fun other ↦ ?_⟩
  · intro id width present
    rcases Context.declared_withLeaves present with old | ⟨other, ty, value, member, same⟩
    · rcases (Context.mem_declared_reference ..).mp old with older | ⟨-, new⟩
      · exact accounts.inputs id width older
      · cases new
    · cases same
      rw [scalar.typed id ty value member]
  · intro equation member
    rcases List.mem_append.mp member with old | new
    · exact (accounts.stated equation old).mono kept
    · obtain rfl := List.mem_singleton.mp new
      exact ⟨fun id ty value leaf ↦
        ⟨scalar.typed id ty value leaf, Context.declares_withLeaves _ leaf⟩, term, rfl, sorted⟩
  · rw [width?_cell_withLeaves, Context.width?_reference, accounts.cells, accounts.cells,
      List.find?_append]
    by_cases same : other = address
    · subst same
      cases equations.find? (·.address == other) <;> simp
    · have apart : ¬Symbol.cell other = .cell address := fun equal ↦ same (by cases equal; rfl)
      rw [if_neg apart]
      simp [Ne.symm same]

/-! ## Runs -/

theorem Accounts.extend {cells : List (Address × Expr)}
    (accounts : Accounts types context equations)
    (scalars : ∀ cell ∈ cells, ScalarOver types cell.2) :
    ∃ new declared, (cells.mapM encodeEquation).runIn context = (.ok new, declared) ∧
      Accounts types declared (equations ++ new) := by
  induction cells generalizing context equations with
  | nil => exact ⟨[], context, rfl, by rwa [List.append_nil]⟩
  | cons cell rest ih =>
    obtain ⟨here, later⟩ := List.forall_mem_cons.mp scalars
    obtain ⟨equation, middle, ran, accountsHere⟩ := accounts.equation here cell.1
    obtain ⟨new, declared, ranLater, all⟩ := ih accountsHere later
    refine ⟨equation :: new, declared, ?_, by rwa [List.append_assoc] at all⟩
    rw [List.mapM_cons, Encoder.runIn_bind, ran]
    simp only [Encoder.runIn_bind, ranLater]
    rfl

theorem Accounts.step {action : MemoryAction} {next : Exchange}
    (accounts : Accounts types exchange.context exchange.equations)
    (scalars : ∀ cell ∈ action.equated exchange.memory, ScalarOver types cell.2)
    (stepped : exchange.step action = .ok next) :
    Accounts types next.context next.equations := by
  obtain ⟨new, declared, ran, all⟩ := accounts.extend scalars
  rw [Exchange.step, ran] at stepped
  obtain ⟨memory, -, result⟩ := bind_eq_ok.mp stepped
  rw [pure_eq_ok] at result
  rw [← result]
  exact all

theorem Accounts.run {actions : List MemoryAction}
    (accounts : Accounts types exchange.context exchange.equations)
    (scalars : exchange.AllEquated (ScalarOver types) actions)
    (ran : exchange.run actions = .ok final) : Accounts types final.context final.equations := by
  induction actions generalizing exchange with
  | nil =>
    cases ran
    exact accounts
  | cons action rest ih =>
    obtain ⟨next, stepped, ran⟩ := bind_eq_ok.mp ran
    exact ih (accounts.step scalars.1 stepped) (scalars.2 next stepped) ran

/-- The first equation on a cell gives its constant a width.  All equations on the cell have terms
of the widths of their expressions, and are well sorted where that is the width of the first. -/
theorem run_equations_sorted {actions : List MemoryAction}
    (scalars : Exchange.AllEquated (ScalarOver types) {} actions)
    (ran : Exchange.run {} actions = .ok final) :
    ∀ equation ∈ final.equations, ∃ first term,
      final.equations.find? (·.address == equation.address) = some first ∧
      equation.term = .rel .eq (.symbol (.cell equation.address)) term ∧
      final.context.width? (.cell equation.address) = some first.e.bits ∧
      term.sort final.context.sorts = some (.word equation.e.bits) ∧
      (equation.term.sort final.context.sorts = some .truth ↔
        equation.e.bits = first.e.bits) := by
  have accounts : Accounts types final.context final.equations :=
    (accounts_nil types).run scalars ran
  intro equation member
  have some_first : (final.equations.find? (·.address == equation.address)).isSome = true :=
    List.find?_isSome.mpr ⟨equation, member, by simp⟩
  obtain ⟨first, found⟩ := Option.isSome_iff_exists.mp some_first
  have width : final.context.width? (.cell equation.address) = some first.e.bits := by
    rw [accounts.cells, found]
    rfl
  obtain ⟨inputs, term, shape, sorted⟩ := accounts.stated equation member
  have admits : final.context.Admits equation.e.leaves := by
    intro id ty value leaf bits present
    rw [accounts.inputs id bits present, (inputs id ty value leaf).1]
  have word : term.sort final.context.sorts = some (.word equation.e.bits) := by
    have inContext := sorted final.context admits
    rwa [Context.withLeaves_of_declares fun id ty value leaf ↦ (inputs id ty value leaf).2]
      at inContext
  refine ⟨first, term, found, shape, width, word, ?_⟩
  have cell : final.context.sorts (.cell equation.address) = some (.word first.e.bits) := by
    rw [Context.sorts, width]
    rfl
  simp only [shape, Term.sort, cell, word, Option.bind_some, TermSort.zipWords]
  split <;> simp_all

/-- The first input is an `int`, and all others are bytes. -/
def narrowedTypes (id : InputId) : CType :=
  if id = 0 then .int else .uchar

/-- A byte is written where a number was, after the cell got its constant. -/
def narrowedActions : List MemoryAction :=
  [.write 4096 .int (.input 0 .int 7), .equate, .write 4096 .uchar (.input 1 .uchar 9),
    .equateAt 4096]

theorem narrowed_scalars : Exchange.AllEquated (ScalarOver narrowedTypes) {} narrowedActions := by
  have first : ScalarOver narrowedTypes (.input 0 .int 7) := scalarOver_input (by decide)
  have second : ScalarOver narrowedTypes (.input 1 .uchar 9) := scalarOver_input (by decide)
  refine ⟨fun _ member ↦ absurd member List.not_mem_nil, ?_⟩
  rintro _ ⟨⟩
  refine ⟨fun cell member ↦ List.mem_singleton.mp member ▸ first, ?_⟩
  rintro _ ⟨⟩
  refine ⟨fun _ member ↦ absurd member List.not_mem_nil, ?_⟩
  rintro _ ⟨⟩
  exact ⟨fun cell member ↦ List.mem_singleton.mp member ▸ second, fun _ _ ↦ trivial⟩

theorem run_equations_sorted_narrowed :
    ∃ final, Exchange.AllEquated (ScalarOver narrowedTypes) {} narrowedActions ∧
      Exchange.run {} narrowedActions = .ok final ∧
      final.equations.map (·.e.bits) = [32, 8] ∧
      ∀ equation ∈ final.equations, ∃ first,
        final.equations.find? (·.address == equation.address) = some first ∧
        (equation.term.sort final.context.sorts = some .truth ↔
          equation.e.bits = first.e.bits) := by
  obtain ⟨final, ran, widths⟩ : ∃ final, Exchange.run {} narrowedActions = .ok final ∧
      final.equations.map (·.e.bits) = [32, 8] := ⟨_, rfl, rfl⟩
  refine ⟨final, narrowed_scalars, ran, widths, fun equation member ↦ ?_⟩
  obtain ⟨first, -, found, -, -, -, same⟩ :=
    run_equations_sorted narrowed_scalars ran equation member
  exact ⟨first, found, same⟩

/-- The constant of the cell keeps its 32 bits, and the byte equated with it has 8. -/
theorem not_run_equations_sorted :
    ¬∀ (types : InputId → CType) (actions : List MemoryAction) (final : Exchange),
      Exchange.AllEquated (ScalarOver types) {} actions → Exchange.run {} actions = .ok final →
      ∀ equation ∈ final.equations, equation.term.sort final.context.sorts = some .truth := by
  intro claim
  obtain ⟨final, ran, sorts⟩ : ∃ final, Exchange.run {} narrowedActions = .ok final ∧
      final.equations.map (·.term.sort final.context.sorts) = [some .truth, none] :=
    ⟨_, rfl, rfl⟩
  have sorted := claim narrowedTypes narrowedActions final narrowed_scalars ran
  have unsorted : none ∈ final.equations.map (·.term.sort final.context.sorts) := by simp [sorts]
  obtain ⟨equation, member, ill⟩ := List.mem_map.mp unsorted
  rw [sorted equation member] at ill
  contradiction

end Smt

end Concolic
